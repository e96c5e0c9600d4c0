import Jaf.Proofs.Parser.StatementForms
import Jaf.Proofs.Tree.Relocation

/-!
# One parser over two feeds

A parser knows of its feed only the tokens that it is handed or shown and how many are left. Of a token it looks
at the kind; the place it copies into nodes and errors, and merges with other places on the way. So when two
feeds hand out the same tokens in different places, the same parser takes the same course over both. `Mirror`
says what the two feeds have to agree on, and allows the first of them to meet bad text, where parsing stops.
Going through the grammar shows that every parser `Mirrors` itself: over the second feed it gives the tree of
the first elsewhere, or fails in the same way elsewhere, unless it stops at bad text of the first feed.

An error of the grammar lies at a token that was current at some time, which is why a mirror also says which
tokens can become current. A parser may be handed places and trees by the parser before it, so the rules speak of
two parsers that have been handed what lies in either place.
-/

namespace Jaf

variable {φ ψ α β : Type} [Feed φ] [Feed ψ]

/-- What two feeds agree on up to places, as long as the first of them meets no bad text. -/
structure Mirror (φ ψ : Type) [Feed φ] [Feed ψ] extends Relocation where
  /-- The feeds hand out the same tokens from here on. -/
  InStep : φ → ψ → Prop
  /-- The tokens that the first feed can hand out. -/
  Current : Token → Prop
  /-- The bad text that the first feed can meet. -/
  Bad : BadText → Prop
  left {a : φ} {b : ψ} : InStep a b → Feed.left a = Feed.left b
  next {a : φ} {b : ψ} : InStep a b →
    (∃ t a' b', Feed.next a = (.ok t, a') ∧ Feed.next b = (.ok (toRelocation.token t), b') ∧ Current t ∧
      InStep a' b') ∨ ∃ bad a', Feed.next a = (.error bad, a') ∧ Bad bad
  peek {a : φ} {b : ψ} : InStep a b →
    (∃ t a' b', Feed.peek a = (.ok t, a') ∧ Feed.peek b = (.ok (toRelocation.token t), b') ∧ InStep a' b') ∨
      ∃ bad a', Feed.peek a = (.error bad, a') ∧ Bad bad

/-- What a turn decides, with its state and its result changed. -/
@[simp] def Parser.Turn.map (f : α → α) (g : β → β) : Parser.Turn α β → Parser.Turn α β
  | .again a => .again (f a)
  | .done b => .done (g b)

namespace Mirror

/-- Where the tokens stand that the first feed can hand out. -/
def Place (M : Mirror φ ψ) (p : Span) : Prop := ∃ t, M.Current t ∧ t.span = p

/-- Streams that differ in places and in their feeds only, and those are in step. -/
structure Alike (M : Mirror φ ψ) (s : Stream φ) (t : Stream ψ) : Prop where
  current_eq : t.current = M.token s.current
  current : M.Current s.current
  feed : M.InStep s.feed t.feed
  previous : t.previous = M.place s.previous
  typeNames : t.typeNames = s.typeNames

theorem Alike.place {M : Mirror φ ψ} {s : Stream φ} {t : Stream ψ} (h : M.Alike s t) :
    M.Place s.current.span := ⟨s.current, h.current, rfl⟩

/-- Results over both feeds, where `f` is what relocating does to a value. -/
inductive Agree (M : Mirror φ ψ) (f : α → α) :
    Except ParseError (α × Stream φ) → Except ParseError (α × Stream ψ) → Prop
  | value {a : α} {s : Stream φ} {t : Stream ψ} : M.Alike s t → Agree M f (.ok (a, s)) (.ok (f a, t))
  | grammar {p : Span} {c : SyntaxCause} :
      M.Place p → Agree M f (.error (.grammar p c)) (.error (.grammar (M.place p) c))
  | badText {b : BadText} {r : Except ParseError (α × Stream ψ)} :
      M.Bad b → Agree M f (.error (.badText b)) r

/-- The parsers agree on all streams that are alike. -/
def Mirrors (M : Mirror φ ψ) (f : α → α) (p : Parser φ α) (q : Parser ψ α) : Prop :=
  ∀ s t, M.Alike s t → M.Agree f (p s) (q t)

variable {M : Mirror φ ψ}

/-! ## Rules -/

theorem mirrors_pure {f : α → α} {a b : α} (h : f a = b) :
    M.Mirrors f (pure a) (pure b) := by
  intro s t hst
  subst h
  exact .value hst

theorem Mirrors.bind {f : α → α} {f' : β → β} {p : Parser φ α} {q : Parser ψ α}
    {next : α → Parser φ β} {next' : α → Parser ψ β} (hp : M.Mirrors f p q)
    (hnext : ∀ a, M.Mirrors f' (next a) (next' (f a))) : M.Mirrors f' (p >>= next) (q >>= next') := by
  intro s t h
  have hpq := hp s t h
  simp only [Bind.bind, StateT.bind]
  generalize p s = r at hpq ⊢
  generalize q t = r' at hpq ⊢
  cases hpq with
  | value h' => exact hnext _ _ _ h'
  | grammar hplace => exact .grammar hplace
  | badText hbad => exact .badText hbad

/-- What has no places is handed on as it is. -/
theorem Mirrors.seq {f : β → β} {p : Parser φ α} {q : Parser ψ α} {next : α → Parser φ β}
    {next' : α → Parser ψ β} (hp : M.Mirrors id p q) (hnext : ∀ a, M.Mirrors f (next a) (next' a)) :
    M.Mirrors f (p >>= next) (q >>= next') := hp.bind hnext

theorem Mirrors.map {f : α → α} {f' : β → β} {p : Parser φ α} {q : Parser ψ α} {g : α → β}
    (hp : M.Mirrors f p q) (hg : ∀ a, f' (g a) = g (f a)) : M.Mirrors f' (g <$> p) (g <$> q) := by
  rw [map_eq_pure_bind, map_eq_pure_bind]
  exact hp.bind fun a => mirrors_pure (hg a)

theorem Mirrors.ite {f : α → α} {c : Prop} [Decidable c] {p p' : Parser φ α} {q q' : Parser ψ α}
    (h : M.Mirrors f p q) (h' : M.Mirrors f p' q') :
    M.Mirrors f (if c then p else p') (if c then q else q') := by
  split
  · exact h
  · exact h'

/-- The place of the current token may be used for an error later on. -/
theorem mirrors_span {f : α → α} {next : Span → Parser φ α} {next' : Span → Parser ψ α}
    (h : ∀ p, M.Place p → M.Mirrors f (next p) (next' (M.place p))) :
    M.Mirrors f (Parser.span >>= next) (Parser.span >>= next') := by
  intro s t hst
  show M.Agree f (next s.current.span s) (next' t.current.span t)
  rw [hst.current_eq]
  exact h s.current.span hst.place s t hst

/-! ## Looking at the stream -/

open Jaf.Parser

theorem mirrors_kind : M.Mirrors id kind kind := by
  intro s t h
  simp only [kind, h.current_eq]
  exact .value h

theorem mirrors_previous : M.Mirrors M.place previous previous := by
  intro s t h
  simp only [previous, h.previous]
  exact .value h

theorem mirrors_failAt {f : α → α} {p : Span} {c : SyntaxCause} (h : M.Place p) :
    M.Mirrors f (failAt p c) (failAt (M.place p) c) := fun _ _ _ => .grammar h

theorem mirrors_unexpected {f : α → α} {e : Expected} : M.Mirrors f (unexpected e) (unexpected e) := by
  intro s t h
  simp only [unexpected, h.current_eq]
  exact .grammar h.place

theorem mirrors_giveUp {f : α → α} : M.Mirrors f giveUp giveUp := by
  intro s t h
  simp only [giveUp, h.current_eq]
  exact .grammar h.place

theorem mirrors_at {k : Token.Kind} : M.Mirrors id (at? k) (at? k) := mirrors_kind.seq fun _ => mirrors_pure rfl

theorem mirrors_isTypeName {text : String} : M.Mirrors id (isTypeName text) (isTypeName text) := by
  intro s t h
  simp only [isTypeName, h.typeNames]
  exact .value h

theorem mirrors_addTypeName {text : String} : M.Mirrors id (addTypeName text) (addTypeName text) :=
  fun _ _ h => .value ⟨h.current_eq, h.current, h.feed, h.previous, congrArg (text :: ·) h.typeNames⟩

theorem mirrors_startsType : M.Mirrors id startsType startsType := by
  refine mirrors_kind.seq fun k => ?_
  split
  · exact mirrors_isTypeName
  · exact mirrors_pure rfl

/-! ## Moving on -/

theorem mirrors_advance : M.Mirrors id advance advance := by
  intro s t h
  rcases M.next h.feed with ⟨u, a, b, ha, hb, hu, hab⟩ | ⟨bad, a, ha, hbad⟩
  · simp only [advance, ha, hb]
    exact .value ⟨rfl, hu, hab, congrArg Token.span h.current_eq, h.typeNames⟩
  · simp only [advance, ha]
    exact .badText hbad

theorem mirrors_lookahead : M.Mirrors id lookahead lookahead := by
  intro s t h
  rcases M.peek h.feed with ⟨u, a, b, ha, hb, hab⟩ | ⟨bad, a, ha, hbad⟩
  · simp only [lookahead, ha, hb]
    exact .value ⟨h.current_eq, h.current, hab, h.previous, h.typeNames⟩
  · simp only [lookahead, ha]
    exact .badText hbad

theorem mirrors_accept {k : Token.Kind} : M.Mirrors id (accept k) (accept k) :=
  mirrors_kind.seq fun _ => .ite (mirrors_advance.seq fun _ => mirrors_pure rfl) (mirrors_pure rfl)

theorem mirrors_expect {k : Token.Kind} : M.Mirrors id (expect k) (expect k) :=
  mirrors_kind.seq fun _ => .ite mirrors_advance mirrors_unexpected

theorem mirrors_name? : M.Mirrors id name? name? := by
  refine mirrors_kind.seq fun k => ?_
  split
  · exact mirrors_advance.seq fun _ => mirrors_pure rfl
  · exact mirrors_pure rfl

theorem mirrors_name : M.Mirrors id name name := by
  refine mirrors_name?.seq fun text => ?_
  split
  · exact mirrors_pure rfl
  · exact mirrors_unexpected

/-! ## Recursion and repetition -/

/-- A parser that is chosen by the number of lexemes left. -/
theorem mirrors_depth {f : α → α} {p : Nat → Parser φ α} {q : Nat → Parser ψ α}
    (h : ∀ n, M.Mirrors f (p n) (q n)) : M.Mirrors f (fun s => p (depth s) s) (fun t => q (depth t) t) := by
  intro s t hst
  have hdepth : depth s = depth t := congrArg (· + 2) (M.left hst.feed)
  show M.Agree f (p (depth s) s) (q (depth t) t)
  rw [← hdepth]
  exact h (depth s) s t hst

theorem mirrors_loopN {f : α → α} {g : β → β} {turn : α → Parser φ (Turn α β)}
    {turn' : α → Parser ψ (Turn α β)} (h : ∀ a, M.Mirrors (Turn.map f g) (turn a) (turn' (f a))) (n : Nat) :
    ∀ a, M.Mirrors g (loopN turn n a) (loopN turn' n (f a)) := by
  induction n with
  | zero => intro a; exact mirrors_giveUp
  | succ n ih =>
      intro a
      refine (h a).bind fun t => ?_
      cases t with
      | again a' => exact ih a'
      | done b => exact mirrors_pure rfl

theorem mirrors_loop {f : α → α} {g : β → β} {turn : α → Parser φ (Turn α β)}
    {turn' : α → Parser ψ (Turn α β)} (h : ∀ a, M.Mirrors (Turn.map f g) (turn a) (turn' (f a))) (a : α) :
    M.Mirrors g (loop turn a) (loop turn' (f a)) :=
  mirrors_depth fun n => mirrors_loopN h n a

end Mirror

/-! ## Expressions -/

namespace ExprParsers

open Jaf.Parser Mirror

/-- The expression parsers of one level mirror those of another. -/
structure Mirrored (M : Mirror φ ψ) (inner : ExprParsers φ) (inner' : ExprParsers ψ) : Prop where
  expression : M.Mirrors M.expr inner.expression inner'.expression
  assignment : M.Mirrors M.expr inner.assignment inner'.assignment
  conditional : M.Mirrors M.expr inner.conditional inner'.conditional
  binary (least : Nat) : M.Mirrors M.expr (inner.binary least) (inner'.binary least)
  unary : M.Mirrors M.expr inner.unary inner'.unary

variable {M : Mirror φ ψ} {inner : ExprParsers φ} {inner' : ExprParsers ψ}

theorem mirrors_literal {p : Span} (hp : M.Place p) {make : Note → Except SyntaxCause Expr}
    (h : make (.ofSpan (M.place p)) = (make (.ofSpan p)).map M.expr) :
    M.Mirrors M.expr (literal p make) (literal (M.place p) make) := by
  unfold literal
  rw [h]
  cases make (.ofSpan p) with
  | ok e => exact mirrors_pure rfl
  | error c => exact mirrors_failAt hp

theorem mirrors_numeric {γ : Type} {cause : SyntaxCause} {make : Note → γ → Expr} {value : Option γ}
    {p : Span} (hp : M.Place p) (h : ∀ v, make (.ofSpan (M.place p)) v = M.expr (make (.ofSpan p) v)) :
    M.Mirrors M.expr (literal p (numeric cause make value)) (literal (M.place p) (numeric cause make value)) := by
  refine mirrors_literal hp ?_
  cases value with
  | none => rfl
  | some v => exact congrArg Except.ok (h v)

theorem mirrors_arguments (h : Mirrored M inner inner') :
    M.Mirrors (List.map M.expr) (arguments inner) (arguments inner') := by
  refine mirrors_accept.seq fun none => .ite (mirrors_pure rfl) ?_
  refine (mirrors_loop (f := List.map M.expr) (fun args => ?_) []).bind fun args =>
    mirrors_expect.seq fun _ => mirrors_pure rfl
  refine h.assignment.bind fun e => mirrors_accept.seq fun more => ?_
  exact .ite (mirrors_pure (by simp)) (mirrors_pure (by simp))

theorem mirrors_primary (h : Mirrored M inner inner') : M.Mirrors M.expr (primary inner) (primary inner') := by
  refine mirrors_span fun start hstart => mirrors_kind.seq fun k => ?_
  split
  -- literals
  · exact mirrors_advance.seq fun _ => mirrors_numeric hstart fun _ => rfl
  · exact mirrors_advance.seq fun _ => mirrors_numeric hstart fun _ => rfl
  · exact mirrors_advance.seq fun _ => mirrors_numeric hstart fun _ => rfl
  · refine mirrors_advance.seq fun _ => mirrors_literal hstart ?_
    cases stringLiteral _ <;> rfl
  -- a name or a call
  · refine mirrors_advance.seq fun _ => mirrors_accept.seq fun called => .ite ?_ (mirrors_pure rfl)
    exact (mirrors_arguments h).bind fun args => mirrors_previous.bind fun p => mirrors_pure (by simp)
  -- parentheses
  · exact mirrors_advance.seq fun _ => h.expression.bind fun e => mirrors_expect.seq fun _ =>
      mirrors_previous.bind fun p => mirrors_pure (by simp)
  · exact mirrors_unexpected

theorem mirrors_suffixes (e : Expr) : M.Mirrors M.expr (suffixes e) (suffixes (M.expr e)) := by
  refine mirrors_loop (fun e => mirrors_kind.seq fun k => ?_) e
  split
  · exact mirrors_advance.seq fun _ => mirrors_name.seq fun field =>
      mirrors_previous.bind fun p => mirrors_pure (by simp)
  · exact mirrors_advance.seq fun _ => mirrors_previous.bind fun p => mirrors_pure (by simp)
  · exact mirrors_advance.seq fun _ => mirrors_previous.bind fun p => mirrors_pure (by simp)
  · exact mirrors_span fun p hp => mirrors_failAt hp
  · exact mirrors_pure rfl

theorem mirrors_operand (h : Mirrored M inner inner') (start : Span) (op : UnaryOp) :
    M.Mirrors M.expr (operand inner start op) (operand inner' (M.place start) op) := by
  refine mirrors_span fun here _ => mirrors_kind.seq fun k => .ite ?_ ?_
  · exact mirrors_advance.seq fun _ => mirrors_pure (by simp)
  · exact h.unary.bind fun e => mirrors_pure (by simp)

theorem mirrors_castTail (h : Mirrored M inner inner') (start : Span) (target : TypeKind) :
    M.Mirrors M.expr (castTail inner start target) (castTail inner' (M.place start) target) :=
  mirrors_advance.seq fun _ => mirrors_expect.seq fun _ => h.unary.bind fun e => mirrors_pure (by simp)

theorem mirrors_unaryLayer (h : Mirrored M inner inner') :
    M.Mirrors M.expr (unaryLayer inner) (unaryLayer inner') := by
  have hplain : M.Mirrors M.expr (primary inner >>= suffixes) (primary inner' >>= suffixes) :=
    (mirrors_primary h).bind mirrors_suffixes
  refine mirrors_span fun start _ => mirrors_kind.seq fun k => ?_
  split
  · exact mirrors_advance.seq fun _ => h.unary
  -- a parenthesis: a look at the token behind it tells a cast
  · refine mirrors_lookahead.seq fun k' => ?_
    split
    · exact mirrors_advance.seq fun _ => mirrors_castTail h start _
    · exact hplain
  · split
    · exact mirrors_advance.seq fun _ => mirrors_operand h start _
    · exact hplain

theorem mirrors_binaryLayer (h : Mirrored M inner inner') (least : Nat) :
    M.Mirrors M.expr (binaryLayer inner least) (binaryLayer inner' least) := by
  refine (mirrors_unaryLayer h).bind (mirrors_loop fun left => mirrors_kind.seq fun k => ?_)
  split
  · refine .ite (mirrors_pure rfl) (mirrors_advance.seq fun _ => ?_)
    exact (h.binary _).bind fun right => mirrors_pure (by simp)
  · exact mirrors_pure rfl

theorem mirrors_conditionalLayer (h : Mirrored M inner inner') :
    M.Mirrors M.expr (conditionalLayer inner) (conditionalLayer inner') := by
  refine (mirrors_binaryLayer h 1).bind fun test => mirrors_accept.seq fun asked => .ite ?_ (mirrors_pure rfl)
  exact h.expression.bind fun yes => mirrors_expect.seq fun _ =>
    h.conditional.bind fun no => mirrors_pure (by simp)

theorem mirrors_assignmentLayer (h : Mirrored M inner inner') :
    M.Mirrors M.expr (assignmentLayer inner) (assignmentLayer inner') := by
  refine (mirrors_conditionalLayer h).bind fun target => mirrors_kind.seq fun k => ?_
  split
  · exact mirrors_advance.seq fun _ => h.assignment.bind fun value => mirrors_pure (by simp)
  · exact mirrors_pure rfl

theorem mirrors_expressionLayer (h : Mirrored M inner inner') :
    M.Mirrors M.expr (expressionLayer inner) (expressionLayer inner') := by
  refine (mirrors_assignmentLayer h).bind fun first => mirrors_at.seq fun more => .ite ?_ (mirrors_pure rfl)
  refine (mirrors_loop (f := List.map M.expr) (g := List.map M.expr) (fun items => ?_) [first]).bind
    fun items => mirrors_previous.bind fun p => mirrors_pure (by simp)
  refine mirrors_accept.seq fun more => .ite ?_ (mirrors_pure rfl)
  exact h.assignment.bind fun e => mirrors_pure (by simp)

theorem mirrored_exprParsers (n : Nat) : Mirrored M (exprParsers n) (exprParsers n) := by
  induction n with
  | zero =>
      exact ⟨mirrors_giveUp, mirrors_giveUp, mirrors_giveUp, fun _ => mirrors_giveUp, mirrors_giveUp⟩
  | succ n ih =>
      exact ⟨mirrors_expressionLayer ih, mirrors_assignmentLayer ih, mirrors_conditionalLayer ih,
        mirrors_binaryLayer ih, mirrors_unaryLayer ih⟩

end ExprParsers

namespace Mirror

open Jaf.Parser ExprParsers

variable {M : Mirror φ ψ}

theorem mirrors_expression : M.Mirrors M.expr expression expression :=
  mirrors_depth fun n => (mirrored_exprParsers n).expression

theorem mirrors_assignment : M.Mirrors M.expr assignment assignment :=
  mirrors_depth fun n => (mirrored_exprParsers n).assignment

theorem mirrors_conditional : M.Mirrors M.expr conditional conditional :=
  mirrors_depth fun n => (mirrored_exprParsers n).conditional

theorem mirrors_condition : M.Mirrors M.expr condition condition :=
  mirrors_expect.seq fun _ => mirrors_expression.bind fun _ => mirrors_expect.seq fun _ => mirrors_pure rfl

/-! ## Types and parameters -/

section
variable {inner : Parser φ TypeSpec} {inner' : Parser ψ TypeSpec}

theorem mirrors_members (h : M.Mirrors M.type inner inner') :
    M.Mirrors (List.map M.decl) (members inner) (members inner') := by
  refine mirrors_span fun start _ => h.bind fun type => mirrors_accept.seq fun alone => .ite ?_ ?_
  · exact mirrors_previous.bind fun p => mirrors_pure (by simp)
  refine (mirrors_loop (f := Prod.map M.type (List.map M.decl)) (fun a => ?_) (type, [])).bind
    fun decls => mirrors_expect.seq fun _ => mirrors_pure rfl
  refine mirrors_name.seq fun field => mirrors_previous.bind fun p => mirrors_accept.seq fun more => ?_
  exact .ite (mirrors_pure (by simp)) (mirrors_pure (by simp))

theorem mirrors_structTail (h : M.Mirrors M.type inner inner') {start : Span} (hstart : M.Place start) :
    M.Mirrors M.type (structTail inner start) (structTail inner' (M.place start)) := by
  refine mirrors_name?.seq fun tag => ?_
  -- what follows the tag is the same whether the tag makes a type name or not
  extract_lets rest rest'
  have hrest : ∀ u, M.Mirrors M.type (rest u) (rest' u) := by
    intro u
    refine mirrors_accept.seq fun braced => .ite ?_ ?_
    · refine (mirrors_loop (f := List.map M.decl) (g := List.map M.decl) (fun ds => ?_) []).bind
        fun ds => mirrors_expect.seq fun _ => mirrors_previous.bind fun p => mirrors_pure (by simp)
      refine mirrors_kind.seq fun k => ?_
      split
      · exact mirrors_pure rfl
      · exact mirrors_failAt hstart
      · exact (mirrors_members h).bind fun more => mirrors_pure (by simp)
    · split
      · exact mirrors_previous.bind fun p => mirrors_pure (by simp)
      · exact mirrors_unexpected
  split
  · exact mirrors_addTypeName.seq hrest
  · exact hrest ()

theorem mirrors_enumerators : M.Mirrors id enumerators enumerators := by
  refine mirrors_loop (f := id) (fun _ => mirrors_at.seq fun closed => .ite (mirrors_pure rfl) ?_) ()
  refine mirrors_name.seq fun label => mirrors_accept.seq fun valued => ?_
  extract_lets rest rest'
  have hrest : ∀ u, M.Mirrors (Turn.map id id) (rest u) (rest' u) := fun u =>
    mirrors_accept.seq fun more => .ite (mirrors_pure rfl) (mirrors_pure rfl)
  exact .ite (mirrors_conditional.bind fun _ => hrest ()) (hrest ())

theorem mirrors_enumTail (start : Span) : M.Mirrors M.type (enumTail start) (enumTail (M.place start)) := by
  refine mirrors_name?.seq fun tag => mirrors_accept.seq fun braced => ?_
  extract_lets rest rest'
  have hrest : ∀ u, M.Mirrors M.type (rest u) (rest' u) := fun u =>
    mirrors_previous.bind fun p => mirrors_pure (by simp)
  exact .ite (mirrors_enumerators.seq fun _ => mirrors_expect.seq hrest) (hrest ())

theorem mirrors_typeLayer (h : M.Mirrors M.type inner inner') :
    M.Mirrors M.type (typeLayer inner) (typeLayer inner') := by
  refine mirrors_span fun start hstart => ?_
  extract_lets word word'
  have hword : ∀ k, M.Mirrors M.type (word k) (word' k) := fun k =>
    mirrors_advance.seq fun _ => mirrors_pure rfl
  refine mirrors_kind.seq fun k => ?_
  split
  · exact hword _
  · exact hword _
  · exact hword _
  · exact hword _
  · exact mirrors_advance.seq fun _ => mirrors_structTail h hstart
  · exact mirrors_advance.seq fun _ => mirrors_enumTail start
  · refine mirrors_isTypeName.seq fun known => .ite ?_ mirrors_unexpected
    exact mirrors_advance.seq fun _ => mirrors_pure rfl
  · exact mirrors_unexpected

end

theorem mirrors_typeSpec : M.Mirrors M.type typeSpec typeSpec := by
  refine mirrors_depth fun n => ?_
  induction n with
  | zero => exact mirrors_giveUp
  | succ n ih => exact mirrors_typeLayer ih

theorem mirrors_atLoneVoid : M.Mirrors id atLoneVoid atLoneVoid :=
  mirrors_at.seq fun _ => .ite (mirrors_lookahead.seq fun _ => mirrors_pure rfl) (mirrors_pure rfl)

theorem mirrors_parameters : M.Mirrors (List.map M.decl) parameters parameters := by
  refine mirrors_expect.seq fun _ => mirrors_accept.seq fun closed => .ite (mirrors_pure rfl) ?_
  refine mirrors_atLoneVoid.seq fun lone => .ite ?_ ?_
  · exact mirrors_advance.seq fun _ => mirrors_advance.seq fun _ => mirrors_pure rfl
  refine (mirrors_loop (f := List.map M.decl) (fun params => ?_) []).bind fun params =>
    mirrors_expect.seq fun _ => mirrors_pure rfl
  refine mirrors_span fun start _ => mirrors_typeSpec.bind fun type => mirrors_name?.seq fun label => ?_
  refine mirrors_previous.bind fun p => mirrors_accept.seq fun more => ?_
  exact .ite (mirrors_pure (by simp)) (mirrors_pure (by simp))

end Mirror

/-! ## Declarations and statements -/

/-- Two tails go on alike, and with things at other places they end in statements at other places. -/
inductive StmtTail.Moved (R : Relocation) : {ns ns' : List Node} → StmtTail ns → StmtTail ns' → Prop
  | done {ns ns' : List Node} {make make' : Span → Stmt} {span span'} {children : ∀ p, (make p).children = ns}
      {children' : ∀ p, (make' p).children = ns'} :
      (∀ p, R.stmt (make p) = make' (R.place p)) → Moved R (done make span children) (done make' span' children')
  | expect {ns ns' : List Node} {k : Token.Kind} {t : StmtTail ns} {t' : StmtTail ns'} {ne : k ≠ .eof} :
      Moved R t t' → Moved R (expect k t ne) (expect k t' ne)
  | name {ns ns' : List Node} {next : String → StmtTail ns} {next' : String → StmtTail ns'} :
      (∀ text, Moved R (next text) (next' text)) → Moved R (name next) (name next')
  | expr {ns ns' : List Node} {rule : ExprRule} {next : ∀ e, StmtTail (ns ++ [.expr e])}
      {next' : ∀ e, StmtTail (ns' ++ [.expr e])} :
      (∀ e, Moved R (next e) (next' (R.expr e))) → Moved R (expr rule next) (expr rule next')
  | option {ns ns' : List Node} {stop : Symbol} {next : ∀ e, StmtTail (ns ++ Node.ofOption e)}
      {next' : ∀ e, StmtTail (ns' ++ Node.ofOption e)} :
      (∀ e, Moved R (next e) (next' (e.map R.expr))) → Moved R (option stop next) (option stop next')
  | block {ns ns' : List Node} {next : ∀ b, StmtTail (ns ++ [.block b])}
      {next' : ∀ b, StmtTail (ns' ++ [.block b])} :
      (∀ b, Moved R (next b) (next' (R.block b))) → Moved R (block next) (block next')
  | init {ns ns' : List Node} {next : ∀ b, StmtTail (ns ++ [.block b])}
      {next' : ∀ b, StmtTail (ns' ++ [.block b])} :
      (∀ b, Moved R (next b) (next' (R.block b))) → Moved R (init next) (init next')
  | stmt {ns ns' : List Node} {next : ∀ x, StmtTail (ns ++ [.stmt x])}
      {next' : ∀ x, StmtTail (ns' ++ [.stmt x])} :
      (∀ x, Moved R (next x) (next' (R.stmt x))) → Moved R (stmt next) (stmt next')
  | ifNext {ns ns' : List Node} {k : Token.Kind} {yes no : StmtTail ns} {yes' no' : StmtTail ns'} {ne : k ≠ .eof} :
      Moved R yes yes' → Moved R no no' → Moved R (ifNext k yes no ne) (ifNext k yes' no' ne)

section Moved

variable {R : Relocation}

theorem StmtTail.moved_compound : compound.Moved R compound := .block fun _ => .done fun _ => rfl

theorem StmtTail.moved_expression : expression.Moved R expression :=
  .expr fun _ => .expect (.done fun _ => rfl)

theorem StmtTail.moved_label (text : String) : (label text).Moved R (label text) :=
  .stmt fun _ => .done fun _ => rfl

theorem StmtTail.moved_ifTail : ifTail.Moved R ifTail :=
  .expr fun _ => .stmt fun _ => .ifNext (.stmt fun _ => .done fun _ => rfl) (.done fun _ => rfl)

theorem StmtTail.moved_forTail : forTail.Moved R forTail :=
  .expect (.init fun _ => .option fun _ => .option fun _ => .stmt fun _ => .done fun _ => rfl)

theorem StmtStart.moved_word {k : Token.Kind} {t : StmtTail []} (h : StmtStart.of k = .word t) : t.Moved R t := by
  unfold StmtStart.of at h
  split at h <;> cases h
  · exact .done fun _ => rfl
  -- conditions and loops
  · exact StmtTail.moved_ifTail
  · exact .expr fun _ => .stmt fun _ => .done fun _ => rfl
  · exact .stmt fun _ => .expect (.expr fun _ => .expect (.done fun _ => rfl))
  · exact StmtTail.moved_forTail
  -- a switch and the labels in it
  · exact .expr fun _ => .block fun _ => .done fun _ => rfl
  · exact .expr fun _ => .expect (.stmt fun _ => .done fun _ => rfl)
  · exact .expect (.stmt fun _ => .done fun _ => rfl)
  -- jumps
  · exact .expect (.done fun _ => rfl)
  · exact .expect (.done fun _ => rfl)
  · exact .option fun _ => .done fun _ => rfl
  · exact .name fun _ => .expect (.done fun _ => rfl)

end Moved

namespace BlockParsers

open Jaf.Parser Mirror

/-- The statement parsers of one level mirror those of another. -/
structure Mirrored (M : Mirror φ ψ) (inner : BlockParsers φ) (inner' : BlockParsers ψ) : Prop where
  item : M.Mirrors (List.map M.item) inner.item inner'.item
  stmt : M.Mirrors M.stmt inner.stmt inner'.stmt

variable {M : Mirror φ ψ} {inner : BlockParsers φ} {inner' : BlockParsers ψ}

theorem mirrors_block (h : Mirrored M inner inner') : M.Mirrors M.block inner.block inner'.block := by
  refine mirrors_span fun start hstart => mirrors_expect.seq fun _ => ?_
  refine (mirrors_loop (f := List.map M.item) (g := List.map M.item) (fun items => ?_) []).bind
    fun items => mirrors_expect.seq fun _ => mirrors_previous.bind fun p => mirrors_pure (by simp)
  refine mirrors_kind.seq fun k => ?_
  split
  · exact mirrors_pure rfl
  · exact mirrors_failAt hstart
  · exact h.item.bind fun more => mirrors_pure (by simp)

theorem mirrors_declarators (start : Span) (type : TypeSpec) (first : String) :
    M.Mirrors (List.map M.item) (declarators start type first)
      (declarators (M.place start) (M.type type) first) := by
  refine (mirrors_loop (f := Prod.map id (Prod.map M.type (List.map M.item))) (fun a => ?_)
    (first, type, [])).bind fun items => mirrors_expect.seq fun _ => mirrors_pure rfl
  refine mirrors_accept.seq fun initialised => ?_
  extract_lets rest rest'
  have hrest : ∀ init, M.Mirrors (Turn.map (Prod.map id (Prod.map M.type (List.map M.item))) (List.map M.item))
      (rest init) (rest' (init.map M.expr)) := fun init =>
    mirrors_previous.bind fun p => mirrors_accept.seq fun more =>
      .ite (mirrors_name.seq fun label => mirrors_pure (by simp)) (mirrors_pure (by simp))
  exact .ite ((mirrors_assignment.map (g := some) fun _ => rfl).bind hrest) (hrest none)

theorem mirrors_declaration (h : Mirrored M inner inner') :
    M.Mirrors (List.map M.item) inner.declaration inner'.declaration := by
  refine mirrors_span fun start _ => mirrors_typeSpec.bind fun type => mirrors_accept.seq fun alone => ?_
  refine .ite (mirrors_previous.bind fun p => mirrors_pure (by simp)) (mirrors_name.seq fun label => ?_)
  refine mirrors_at.seq fun isFunction => .ite ?_ (mirrors_declarators start type label)
  exact mirrors_parameters.bind fun params => (mirrors_block h).bind fun body => mirrors_pure (by simp)

theorem mirrors_forInit (h : Mirrored M inner inner') : M.Mirrors M.block inner.forInit inner'.forInit := by
  refine mirrors_span fun start _ => mirrors_startsType.seq fun typed => ?_
  extract_lets rest rest'
  have hrest : ∀ items, M.Mirrors M.block (rest items) (rest' (items.map M.item)) := fun items =>
    mirrors_previous.bind fun p => mirrors_pure (by simp)
  refine .ite ((mirrors_declaration h).bind hrest) (mirrors_accept.seq fun empty => .ite ?_ ?_)
  · exact hrest []
  · refine mirrors_expression.bind fun e => mirrors_expect.seq fun _ => ?_
    rw [M.span_expr]
    exact hrest [.stmt (.expr e.span e)]

theorem mirrors_exprBefore {stop : Symbol} :
    M.Mirrors (Option.map M.expr) (exprBefore stop) (exprBefore stop) :=
  mirrors_at.seq fun _ => .ite (mirrors_pure rfl) (mirrors_expression.bind fun _ => mirrors_pure rfl)

theorem mirrors_rule (rule : ExprRule) : M.Mirrors M.expr rule.parser rule.parser := by
  cases rule with
  | expression => exact mirrors_expression
  | conditional => exact mirrors_conditional
  | condition => exact mirrors_condition

theorem mirrors_tail (h : Mirrored M inner inner') {finish : Parser φ Span} {finish' : Parser ψ Span}
    (hfinish : M.Mirrors M.place finish finish') {ns ns' : List Node} {t : StmtTail ns} {t' : StmtTail ns'}
    (ht : t.Moved M.toRelocation t') : M.Mirrors M.stmt (t.parser inner finish) (t'.parser inner' finish') := by
  induction ht with
  | done hmake => exact hfinish.bind fun p => mirrors_pure (hmake p)
  | expect _ ih => exact mirrors_expect.seq fun _ => ih
  | name _ ih => exact mirrors_name.seq ih
  | expr _ ih => exact (mirrors_rule _).bind ih
  | option _ ih => exact mirrors_exprBefore.bind fun e => mirrors_expect.seq fun _ => ih e
  | block _ ih => exact (mirrors_block h).bind ih
  | init _ ih => exact (mirrors_forInit h).bind ih
  | stmt _ ih => exact h.stmt.bind ih
  | ifNext _ _ ihyes ihno => exact mirrors_accept.seq fun _ => .ite ihyes ihno

theorem mirrors_stmtLayer (h : Mirrored M inner inner') :
    M.Mirrors M.stmt inner.stmtLayer inner'.stmtLayer := by
  rw [stmtLayer_eq, stmtLayer_eq]
  refine mirrors_span fun start _ => ?_
  extract_lets finish finish'
  have hfinish : M.Mirrors M.place finish finish' := mirrors_previous.bind fun p => mirrors_pure (by simp)
  refine mirrors_kind.seq fun k => ?_
  cases hk : StmtStart.of k with
  | word t => exact mirrors_advance.seq fun _ => mirrors_tail h hfinish (StmtStart.moved_word hk)
  | block => exact mirrors_tail h hfinish StmtTail.moved_compound
  | expr => exact mirrors_tail h hfinish StmtTail.moved_expression
  | name text =>
      -- a look at the token behind a name tells a label
      refine mirrors_lookahead.seq fun k' => .ite ?_ (mirrors_tail h hfinish StmtTail.moved_expression)
      exact mirrors_advance.seq fun _ => mirrors_advance.seq fun _ =>
        mirrors_tail h hfinish (StmtTail.moved_label text)

theorem mirrors_itemLayer (h : Mirrored M inner inner') :
    M.Mirrors (List.map M.item) inner.itemLayer inner'.itemLayer :=
  mirrors_startsType.seq fun _ =>
    .ite (mirrors_declaration h) ((mirrors_stmtLayer h).bind fun _ => mirrors_pure rfl)

theorem mirrored_blockParsers (n : Nat) : Mirrored M (blockParsers n) (blockParsers n) := by
  induction n with
  | zero => exact ⟨mirrors_giveUp, mirrors_giveUp⟩
  | succ n ih => exact ⟨mirrors_itemLayer ih, mirrors_stmtLayer ih⟩

end BlockParsers

/-- **Over feeds that mirror each other, parsing a script takes the same course.** -/
theorem Mirror.mirrors_script {M : Mirror φ ψ} : M.Mirrors M.block Parser.script Parser.script := by
  have hdeclaration : M.Mirrors (List.map M.item) Parser.declaration Parser.declaration :=
    mirrors_depth fun n => BlockParsers.mirrors_declaration (BlockParsers.mirrored_blockParsers n)
  refine mirrors_span fun start _ => ?_
  refine (mirrors_loop (f := List.map M.item) (g := List.map M.item) (fun items => ?_) []).bind
    fun items => mirrors_previous.bind fun p => mirrors_pure (by simp)
  refine mirrors_at.seq fun ended => .ite (mirrors_pure rfl) (mirrors_startsType.seq fun typed => ?_)
  exact .ite (hdeclaration.bind fun more => mirrors_pure (by simp)) mirrors_unexpected

/--
A parser run over feeds in step stops at bad text, fails in the same way elsewhere, or leaves with the same value
elsewhere, if the start of a script stays where it is.
-/
theorem Mirror.Mirrors.run {M : Mirror φ ψ} {f : α → α} {p : Parser φ α} {q : Parser ψ α} (h : M.Mirrors f p q)
    (hstart : M.place (.point 0) = .point 0) {a : φ} {b : ψ} (hab : M.InStep a b) :
    (∃ bad, p.run a = .error (.badText bad) ∧ M.Bad bad) ∨
      (∃ place cause, p.run a = .error (.grammar place cause) ∧
        q.run b = .error (.grammar (M.place place) cause) ∧ M.Place place) ∨
      ∃ s value s', p s = .ok (value, s') ∧ M.Current s'.current ∧ p.run a = .ok value ∧
        q.run b = .ok (f value) := by
  rcases M.next hab with ⟨t, a', b', ha, hb, ht, hab'⟩ | ⟨bad, a', ha, hbad⟩
  · have hpq := h ⟨t, a', .point 0, []⟩ ⟨M.token t, b', .point 0, []⟩ ⟨rfl, ht, hab', hstart.symm, rfl⟩
    simp only [Parser.run, ha, hb]
    generalize hp : p ⟨t, a', .point 0, []⟩ = r at hpq
    generalize q ⟨M.token t, b', .point 0, []⟩ = r' at hpq
    cases hpq with
    | value hst => exact .inr (.inr ⟨_, _, _, hp, hst.current, rfl, rfl⟩)
    | grammar hplace => exact .inr (.inl ⟨_, _, rfl, rfl, hplace⟩)
    | badText hbad => exact .inl ⟨_, rfl, hbad⟩
  · simp only [Parser.run, ha]
    exact .inl ⟨bad, rfl, hbad⟩

end Jaf
