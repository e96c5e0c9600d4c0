import Jaf.Proofs.Parser.DifferingTexts

/-!
# Reading across the parting

The grammar is gone through once, for two texts that part somewhere. Each parser is started where the runs are in
step, and ends where they are in step again, or at the parting if its last token was a semicolon or a brace.
What comes after a parser that has come to the parting mostly fails there, and this is shown where the two are
put together: after a type there is no declarator, after a statement there is no `else` and no `while`, and the
clauses of a `for` loop are no types. What goes on from the parting are the loops over the items of a script or
a block and over the members of a struct, and those get across it by assumption.
-/

namespace Jaf

open Jaf.Parser

/--
What is left of a statement does not go on from the parting, but for tokens that cannot stand there; `reached`
says whether the runs may be at the parting.
-/
@[simp] def StmtTail.Fits {ns : List Node} : StmtTail ns → (reached : Bool) → Prop
  | done _ _ _, _ => True
  | expect k next _, _ => k.isBreak = false ∧ next.Fits k.isEdge
  | name next, reached => reached = false ∧ ∀ text, (next text).Fits false
  | expr _ next, reached => reached = false ∧ ∀ e, (next e).Fits false
  | option stop next, _ => ∀ e, (next e).Fits (Token.Kind.symbol stop).isEdge
  | block next, reached | init next, reached => reached = false ∧ ∀ b, (next b).Fits true
  | stmt next, reached => reached = false ∧ ∀ x, (next x).Fits true
  | ifNext k yes no _, reached => k.isBreak = false ∧ yes.Fits k.isEdge ∧ no.Fits reached

theorem StmtTail.fits_compound : compound.Fits false := by simp [compound]

theorem StmtTail.fits_expression : expression.Fits false :=
  ⟨rfl, fun _ => ⟨rfl, trivial⟩⟩

theorem StmtTail.fits_label (text : String) : (label text).Fits false := by simp [label]

theorem StmtStart.fits_word {k : Token.Kind} {t : StmtTail []} (h : StmtStart.of k = .word t) :
    k ≠ .keyword .kwStruct ∧ t.Fits k.isEdge := by
  unfold StmtStart.of at h
  split at h <;> cases h
  all_goals simp [StmtTail.ifTail, StmtTail.forTail, Token.Kind.isEdge, Token.Kind.isBreak,
    Token.Kind.opensType, Token.Kind.isTypeKeyword, Keyword.startsType]

namespace Parting

variable {α β : Type} {P : Parting} {early : Bool} {l : Nat} {x y : Spot}

/-! ## Types -/

section Types

variable {post : β → Spot → Spot → Prop} {lost : β → Token.Kind → Prop}
  {inner inner' : Parser Ribbon TypeSpec}

/-- One member at the parting takes a name for its own, and another name follows. -/
theorem memberTurn_spot {a : TypeSpec × List VarDecl} {t : Turn (TypeSpec × List VarDecl) (List VarDecl)}
    {s : Stream Ribbon} (h : memberTurn .nowhere a (P.spot.stream P.n) = .ok (t, s)) :
    (∃ decls, t = .done decls) ∧ s = P.spot.next.stream P.n ∧ P.spot.next.kind.isBreak = true := by
  obtain ⟨field, s₁, hname, h⟩ := bind_eq_ok h
  obtain ⟨rfl, hnext⟩ := name_spot hname
  rw [bind_to previous_stream, accept_spot hnext rfl] at h
  cases h
  exact ⟨⟨_, rfl⟩, rfl, hnext⟩

theorem echoes_members
    (h : P.Comes early l inner inner') : P.Comes early l (members inner) (members inner') := by
  rw [members_eq, members_eq]
  refine echoes_span (h.bind fun type => reaches_fail ?_ fun decls s hs => ?_)
  · refine accept_bind (by simp) (echoes_previous (echoes_return _)) ?_
    refine (echoes_along (fun a => ?_) (type, [])).bind fun decls =>
      expect_bind (by simp) (echoes_return _)
    exact name_bind fun field => echoes_previous
      (accept_bind (by simp) (echoes_again _) (echoes_done _))
  · rw [accept_spot spot_break rfl, if_neg (by simp)] at hs
    obtain ⟨decls, s₁, hloop, hs⟩ := bind_eq_ok hs
    obtain ⟨t, s₂, hturn, hloop⟩ := bind_eq_ok hloop
    obtain ⟨⟨ds, rfl⟩, rfl, hnext⟩ := memberTurn_spot hturn
    cases hloop
    obtain ⟨_, _, hexpect, _⟩ := bind_eq_ok hs
    exact ne_of_isBreak hnext rfl (of_expect_stream hexpect).1

theorem tagged_bind {f g : Option String → Parser Ribbon β}
    (hsome : ∀ text, Echoes P.n P.n' (fun x y => P.Near early l (x.learn text) (y.learn text)) post lost
      (f (some text)) (g (some text)))
    (hnone : Echoes P.n P.n' (P.Near early l) post lost (f none) (g none)) :
    Echoes P.n P.n' (P.Tagged early l) post lost (name? >>= f) (name? >>= g) := by
  rintro x y (⟨text, hx, hy, hxy⟩ | ⟨hx, hxy⟩) b s hs
  · rw [bind_to (name?_stream hx)] at hs
    rw [bind_to (name?_stream hy)]
    exact hsome text _ _ hxy b s hs
  · rw [bind_to (name?_stream_none hx)] at hs
    rw [bind_to (name?_stream_none fun text h => hx text (hxy.kind_eq.symm.trans h))]
    exact hnone x y hxy b s hs

theorem echoes_structTail {k k' : Nat} (hl : l ≤ k) (hk : k ≤ k')
    (h : ∀ early, P.Comes early l (typeSpecN k) (typeSpecN k')) :
    Echoes P.n P.n' (P.Tagged early l) (fun _ => P.Reaches early l) never
      (structTail (typeSpecN k) .nowhere) (structTail (typeSpecN k') .nowhere) := by
  have hrest : ∀ tag, P.Comes early l
      (structRest (typeSpecN k) .nowhere tag) (structRest (typeSpecN k') .nowhere tag) := by
    intro tag
    refine accept_bind (by simp) ?_ ?_
    · refine (echoes_across (fun early ds => kind_bind fun t => ?_)
        (fun hleft => P.body k k' (Nat.le_trans hleft hl) hk) []).bind fun ds =>
          expect_bind (by simp) (echoes_previous (echoes_return _))
      split
      · exact echoes_pure fun _ _ h => h.near
      · exact echoes_failAt _ _
      · exact ((echoes_members (h early)).bind fun more => echoes_again _).weaken fun _ _ h => h.near
    · cases tag with
      | some text => exact echoes_previous reaches_return
      | none => exact echoes_unexpected _
  rw [structTail_eq, structTail_eq]
  exact tagged_bind (fun text x y hxy => hrest (some text) _ _ hxy) (hrest none)

theorem echoes_enumerators : P.Stays early l enumerators enumerators := by
  refine echoes_along (fun _ => at_bind fun closed => .ite (echoes_done _) ?_) ()
  refine name_bind fun label => ?_
  have hmore : Echoes P.n P.n' (P.Near early l) (afterTurn (P.Near early l) fun _ => P.Near early l)
      (lostTurn never) (do if ← accept (.symbol .comma) then return .again () else return .done ())
      (do if ← accept (.symbol .comma) then return .again () else return .done ()) :=
    accept_bind (by simp) (echoes_again _) (echoes_done _)
  exact accept_bind (by simp) (echoes_conditional.bind fun _ => hmore) hmore

/-- The parting is not between the braces of an enumeration. -/
theorem enumerators_spot {u : Unit} {s : Stream Ribbon} (h : enumerators (P.spot.stream P.n) = .ok (u, s)) :
    s = P.spot.next.stream P.n ∧ P.spot.next.kind.isBreak = true := by
  obtain ⟨t, s₁, hturn, h⟩ := bind_eq_ok h
  have hat : at? (.symbol .rightBrace) (P.spot.stream P.n) = .ok (false, P.spot.stream P.n) :=
    congrArg (fun b => Except.ok (b, _)) (decide_eq_false (ne_of_isBreak P.opens rfl))
  dsimp only at hturn
  rw [bind_to hat, if_neg (by simp)] at hturn
  obtain ⟨label, s₂, hname, hturn⟩ := bind_eq_ok hturn
  obtain ⟨rfl, hnext⟩ := name_spot hname
  rw [accept_spot hnext rfl, if_neg (by simp), accept_spot hnext rfl] at hturn
  cases hturn
  cases h
  exact ⟨rfl, hnext⟩

theorem echoes_enumTail : P.Comes early l (enumTail .nowhere) (enumTail .nowhere) := by
  refine name?_bind fun tag => accept_bind (by simp) ?_ (echoes_previous reaches_return)
  refine reaches_fail (echoes_enumerators.bind fun _ => expect_bind (by simp) ?_) fun t s hs => ?_
  · exact echoes_previous (echoes_return _)
  · obtain ⟨_, s₁, henum, hs⟩ := bind_eq_ok hs
    obtain ⟨rfl, hnext⟩ := enumerators_spot henum
    obtain ⟨_, _, hexpect, _⟩ := bind_eq_ok hs
    exact ne_of_isBreak hnext rfl (of_expect_stream hexpect).1

/-- **Types.** The levels of types inside of types are enough for what is left of the first text. -/
theorem echoes_typeSpecN (k : Nat) : ∀ {k' l : Nat}, l ≤ k → k ≤ k' → ∀ early,
    P.Comes early l (typeSpecN k) (typeSpecN k') := by
  induction k with
  | zero => intro k' l _ _ early; exact echoes_giveUp
  | succ k ih =>
      intro k' l hl hk early
      obtain ⟨k', rfl⟩ : ∃ j, k' = j + 1 := ⟨k' - 1, by omega⟩
      have hword : ∀ (t : TypeSpec) (w : Token.Kind), w ≠ .keyword .kwStruct →
          Echoes P.n P.n' (P.At early l w) (fun _ => P.Reaches early l) never
            (advance >>= fun _ => pure t) (advance >>= fun _ => pure t) := by
        intro t w hw
        refine advance_bind hw (echoes_pure fun x y h => ?_)
        unfold Lands at h
        cases hedge : w.isEdge with
        | true => rw [hedge] at h; exact h
        | false => rw [hedge] at h; exact .inl h
      refine echoes_span (kind_bind fun w => ?_)
      split
      · exact hword _ _ (by simp)
      · exact hword _ _ (by simp)
      · exact hword _ _ (by simp)
      · exact hword _ _ (by simp)
      · have hinner : ∀ early, P.Comes early (l - 1) (typeSpecN k) (typeSpecN k') := ih (by omega) (by omega)
        refine advance_struct ((echoes_structTail (by omega) (by omega) hinner).strengthen ?_ fun _ _ h => h)
        exact fun _ _ _ h => h.mono (Nat.sub_le l 1)
      · exact advance_bind (by simp) echoes_enumTail
      · refine isTypeName_bind fun known => .ite (hword _ _ (by simp)) (echoes_unexpected _)
      · exact echoes_unexpected _

end Types

/-! ## Declarations -/

section Declarations

variable {post : β → Spot → Spot → Prop} {lost : β → Token.Kind → Prop} {k k' : Token.Kind}

theorem echoes_typeSpec (hl : l ≤ P.n) : P.Comes early l typeSpec typeSpec := by
  have hle := P.le
  have hlevels : P.Comes early l (typeSpecN (P.n + 2)) (typeSpecN (P.n' + 2)) :=
    echoes_typeSpecN (P.n + 2) (by omega) (by omega) early
  exact fun x y hxy t s hs => hlevels x y hxy t s hs

/-- A step to a token that was looked at. -/
theorem advance_peek {f g : Unit → Parser Ribbon β} (hedge : k.isEdge = false) (hk : k ≠ .keyword .kwStruct)
    (h : Echoes P.n P.n' (P.At early l k') post lost (f ()) (g ())) :
    Echoes P.n P.n' (fun x y => P.At early l k x y ∧ x.peek = k') post lost (advance >>= f)
      (advance >>= g) := by
  intro x y hxy
  have hnext := hxy.1.lands hk
  unfold Lands at hnext
  rw [hedge] at hnext
  exact h x.next y.next ⟨hnext, hxy.2⟩

theorem atLoneVoid_bind {f g : Bool → Parser Ribbon β}
    (htrue : Echoes P.n P.n' (fun x y => P.At early l (.keyword .kwVoid) x y ∧ x.peek = .symbol .rightParen)
      post lost (f true) (g true))
    (hfalse : Echoes P.n P.n' (P.Near early l) post lost (f false) (g false)) :
    Echoes P.n P.n' (P.Near early l) post lost (atLoneVoid >>= f) (atLoneVoid >>= g) := by
  have hrun : ∀ n (x : Spot), atLoneVoid (x.stream n) =
      .ok (decide (x.kind = .keyword .kwVoid ∧ x.peek = .symbol .rightParen), x.stream n) := by
    intro n x
    unfold atLoneVoid
    rw [bind_to (show at? (.keyword .kwVoid) (x.stream n) =
      .ok (decide (x.kind = .keyword .kwVoid), x.stream n) from rfl)]
    by_cases hx : x.kind = .keyword .kwVoid
    · rw [decide_eq_true hx, if_pos rfl, bind_to lookahead_stream]
      simp only [hx, true_and]
      rfl
    · rw [decide_eq_false hx, if_neg (by simp), decide_eq_false fun h => hx h.1]
      rfl
  intro x y hxy b s hs
  have hpeek : (x.kind = .keyword .kwVoid ∧ y.peek = .symbol .rightParen) ↔
      (x.kind = .keyword .kwVoid ∧ x.peek = .symbol .rightParen) :=
    and_congr_right fun hk => by rw [hxy.peek_eq (by rw [hk]; rfl)]
  rw [bind_to (hrun _ _)] at hs
  rw [bind_to (hrun _ _), hxy.kind_eq, decide_eq_decide.mpr hpeek]
  by_cases hx : x.kind = .keyword .kwVoid ∧ x.peek = .symbol .rightParen
  · rw [decide_eq_true hx] at hs ⊢
    exact htrue x y ⟨⟨hxy, hx.1⟩, hx.2⟩ b s hs
  · rw [decide_eq_false hx] at hs ⊢
    exact hfalse x y hxy b s hs

/-- What gets lost at the parting need only be looked at where the runs are in step. -/
theorem reaches_stray {p q : Parser Ribbon β} (h : Echoes P.n P.n' (P.Near early l) post lost p q)
    (hstray : Strays P.n lost p P.spot) : Echoes P.n P.n' (P.Reaches early l) post lost p q := by
  rintro x y (hxy | ⟨_, _, rfl, rfl⟩) b s hs
  · exact h x y hxy b s hs
  · obtain ⟨x', rfl, hl⟩ := hstray b s hs
    exact ⟨x', rfl, .inr hl⟩

theorem echoes_parameters (hl : l ≤ P.n) : P.Stays early l parameters parameters := by
  refine expect_bind (by simp) (accept_bind (by simp) (echoes_return _) ?_)
  refine atLoneVoid_bind ?_ ?_
  · exact advance_peek rfl (by simp) (advance_bind (by simp) (echoes_return _))
  · have hlost : ∀ (params : List VarDecl) (x : Spot), beforeBreak params x.kind →
        Strays P.n never (expect (.symbol .rightParen) >>= fun _ => pure params) x :=
      fun _ x h => strays_expect (ne_of_isBreak h rfl)
    refine (echoes_along (fun params => echoes_span ((echoes_typeSpec hl).bind fun type =>
      reaches_stray ?_ ?_)) []).bind_lost (fun params => expect_bind (by simp) (echoes_return _)) hlost
    · exact name?_bind fun label => echoes_previous
        (accept_bind (by simp) (echoes_again _) (echoes_done _))
    -- at the parting a parameter may still get a name, but no comma
    · intro t s hs
      by_cases htext : ∃ text, P.spot.kind = .name text
      · obtain ⟨text, hx⟩ := htext
        obtain ⟨_, hnext⟩ := name_spot (name_stream hx)
        rw [bind_to (name?_stream hx), bind_to previous_stream, accept_spot hnext rfl] at hs
        cases hs
        exact ⟨_, rfl, hnext⟩
      · rw [bind_to (name?_stream_none fun text h => htext ⟨text, h⟩), bind_to previous_stream,
          accept_spot spot_break rfl] at hs
        cases hs
        exact ⟨_, rfl, spot_break⟩

theorem init_bind {f g : Option Expr → Parser Ribbon β}
    (h : ∀ init, Echoes P.n P.n' (P.Near early l) post lost (f init) (g init)) :
    Echoes P.n P.n' (P.Near early l) post lost
      (accept (.symbol .eq) >>= fun b => if b = true then some <$> assignment >>= f else pure none >>= f)
      (accept (.symbol .eq) >>= fun b => if b = true then some <$> assignment >>= g else pure none >>= g) := by
  have hsome : P.Stays early l (some <$> assignment) (some <$> assignment) := by
    rw [map_eq_pure_bind]
    exact echoes_assignment.bind fun e => echoes_return _
  exact accept_bind (by simp) (hsome.bind h) (h none)

theorem echoes_declarators (type : TypeSpec) (first : String) :
    P.Comes early l (BlockParsers.declarators .nowhere type first)
      (BlockParsers.declarators .nowhere type first) := by
  rw [BlockParsers.declarators_eq]
  refine (echoes_along (fun a => ?_) (first, type, [])).bind fun items =>
    expect_bind (by simp) (echoes_return _)
  refine init_bind fun init => echoes_previous (accept_bind (by simp) ?_ (echoes_done _))
  exact name_bind fun label => echoes_again _

end Declarations

/-! ## Statements -/

/-- Where the runs may be: in step, or at the parting too. -/
def Stands (P : Parting) (early : Bool) (l : Nat) : (reached : Bool) → Spot → Spot → Prop
  | true => P.Reaches early l
  | false => P.Near early l

theorem Stands.reaches {reached : Bool} (h : P.Stands early l reached x y) : P.Reaches early l x y := by
  cases reached with
  | true => exact h
  | false => exact .inl h

/-- What statements come back to gets along with the parting. -/
structure Carries (P : Parting) (l : Nat) (inner inner' : BlockParsers Ribbon) : Prop where
  item : ∀ early, P.Comes early l inner.item inner'.item
  stmt : ∀ early, P.Comes early l inner.stmt inner'.stmt
  across : Crosses P.again P.n P.n' P.extra P.spot ⟨P.names, P.right⟩ (inner.blockTurn .nowhere)
    (inner'.blockTurn .nowhere)

section Statements

variable {inner inner' : BlockParsers Ribbon}

theorem echoes_block (h : P.Carries l inner inner') : P.Comes early l inner.block inner'.block := by
  rw [BlockParsers.block_eq, BlockParsers.block_eq]
  refine echoes_span (expect_bind (by simp) ?_)
  refine (echoes_across (fun early items => kind_bind fun k => ?_) (fun _ => h.across) []).bind fun items =>
    expect_bind (by simp) (echoes_previous (echoes_return _))
  split
  · exact echoes_pure fun _ _ h => h.near
  · exact echoes_failAt _ _
  · exact ((h.item early).bind fun more => echoes_again _).weaken fun _ _ h => h.near

/-- A declarator at the parting would be a name behind another one. -/
theorem declarators_fail {x : Spot} (hx : x.kind.isBreak = true) (type : TypeSpec) (first : String)
    (items : List Item) (s : Stream Ribbon) :
    BlockParsers.declarators .nowhere type first (x.stream P.n) ≠ .ok (items, s) := by
  intro hs
  rw [BlockParsers.declarators_eq] at hs
  obtain ⟨items, s₁, hloop, hs⟩ := bind_eq_ok hs
  obtain ⟨t, s₂, hturn, hloop⟩ := bind_eq_ok hloop
  have haccept : ∀ k : Token.Kind, k.isBreak = false →
      accept k (x.stream P.n) = .ok (false, x.stream P.n) := by
    intro k hk
    rw [accept_stream, if_neg (ne_of_isBreak hx hk)]
  have hdone : BlockParsers.declaratorTurn .nowhere (first, type, []) (x.stream P.n) =
      .ok (.done ([] ++ [.var ⟨some first, type, none, none, .nowhere⟩]), x.stream P.n) := by
    rw [BlockParsers.declaratorTurn, bind_to (haccept (.symbol .eq) rfl), if_neg (by simp)]
    rw [pure_bind]
    dsimp only
    rw [bind_to previous_stream]
    exact bind_to (haccept (.symbol .comma) rfl)
  rw [hdone] at hturn
  cases hturn
  cases hloop
  obtain ⟨_, _, hexpect, _⟩ := bind_eq_ok hs
  exact ne_of_isBreak hx rfl (of_expect_stream hexpect).1

theorem echoes_declaration (hl : l ≤ P.n) (h : P.Carries l inner inner') :
    P.Comes early l inner.declaration inner'.declaration := by
  refine echoes_span ((echoes_typeSpec hl).bind fun type => reaches_fail ?_ fun items s hs => ?_)
  · refine accept_bind (by simp) (echoes_previous (echoes_return _)) ?_
    refine name_bind fun label => at_bind fun paren => .ite ?_ (echoes_declarators type label)
    exact (echoes_parameters hl).bind fun params => (echoes_block h).bind fun body => echoes_return _
  · rw [accept_spot spot_break rfl, if_neg (by simp)] at hs
    obtain ⟨label, s₁, hname, hs⟩ := bind_eq_ok hs
    obtain ⟨rfl, hnext⟩ := name_spot hname
    have hat : at? (.symbol .leftParen) (P.spot.next.stream P.n) = .ok (false, P.spot.next.stream P.n) :=
      congrArg (fun b => Except.ok (b, _)) (decide_eq_false (ne_of_isBreak hnext rfl))
    rw [bind_to hat, if_neg (by simp)] at hs
    exact declarators_fail hnext type label items s hs

theorem echoes_forInit (hl : l ≤ P.n) (h : P.Carries l inner inner') :
    P.Comes early l inner.forInit inner'.forInit := by
  refine echoes_span (startsType_bind fun starts => ?_)
  have hreturn : ∀ items, Echoes P.n P.n' (P.Reaches early l) (fun _ => P.Reaches early l) never
      (do return ⟨items, Span.nowhere.merge (← previous)⟩ : Parser Ribbon Block)
      (do return ⟨items, Span.nowhere.merge (← previous)⟩) := fun items => echoes_previous (echoes_return _)
  refine .ite ((echoes_declaration hl h).bind hreturn) (accept_bind (by simp) (hreturn []) ?_)
  exact echoes_expression.bind fun e => expect_bind (by simp) (hreturn _)

theorem echoes_exprBefore (stop : Symbol) :
    Echoes P.n P.n' (P.Reaches early l) (fun _ => P.Near early l) beforeBreak
      (BlockParsers.exprBefore stop) (BlockParsers.exprBefore stop) := by
  refine reaches_stray (at_bind fun stopped => .ite (echoes_return _) ?_) fun e s hs => ?_
  · exact echoes_expression.bind fun e => echoes_return _
  · have hat : at? (.symbol stop) (P.spot.stream P.n) = .ok (false, P.spot.stream P.n) :=
      congrArg (fun b => Except.ok (b, _)) (decide_eq_false (ne_of_isBreak spot_break rfl))
    rw [BlockParsers.exprBefore, bind_to hat, if_neg (by simp)] at hs
    obtain ⟨e, s₁, he, hs⟩ := bind_eq_ok hs
    obtain ⟨x, rfl, hx⟩ := strays_expression e s₁ he
    cases hs
    exact ⟨x, rfl, hx⟩

/-- The place of a statement. -/
abbrev finish : Parser Ribbon Span := do return Span.nowhere.merge (← previous)

theorem finish_bind {f : Span → Parser Ribbon β} {post : β → Spot → Spot → Prop}
    {lost : β → Token.Kind → Prop} {pre : Spot → Spot → Prop}
    (h : Echoes P.n P.n' pre post lost (f .nowhere) (f .nowhere)) :
    Echoes P.n P.n' pre post lost (finish >>= f) (finish >>= f) := h

theorem echoes_condition : P.Stays early l condition condition :=
  expect_bind (by simp) (echoes_expression.bind fun e => expect_bind (by simp) (echoes_return _))

theorem echoes_rule (rule : ExprRule) : P.Stays early l rule.parser rule.parser := by
  cases rule with
  | expression => exact echoes_expression
  | conditional => exact echoes_conditional
  | condition => exact echoes_condition

theorem echoes_tail (hl : l ≤ P.n) (h : P.Carries l inner inner') {ns : List Node} (t : StmtTail ns)
    {reached : Bool} (ht : t.Fits reached) :
    Echoes P.n P.n' (P.Stands early l reached) (fun _ => P.Reaches early l) never (t.parser inner finish)
      (t.parser inner' finish) := by
  induction t generalizing reached with
  | done make _ _ => exact finish_bind (echoes_pure fun _ _ hxy => hxy.reaches)
  | expect k next _ ih => exact (expect_reaches ht.1 (ih ht.2)).weaken fun _ _ hxy => hxy.reaches
  | name next ih =>
      obtain ⟨rfl, hnext⟩ := ht
      exact name_bind fun text => ih text (hnext text)
  | expr rule next ih =>
      obtain ⟨rfl, hnext⟩ := ht
      exact (echoes_rule rule).bind fun e => ih e (hnext e)
  | option stop next ih =>
      have hstop : Echoes P.n P.n' (P.Reaches early l) (fun _ => P.Reaches early l) never
          ((StmtTail.option stop next).parser inner finish) ((StmtTail.option stop next).parser inner' finish) :=
        (echoes_exprBefore stop).bind_lost (fun e => expect_bind (by simp) (ih e (ht e)))
          fun _ x hx => strays_expect (ne_of_isBreak hx rfl)
      exact hstop.weaken fun _ _ hxy => hxy.reaches
  | block next ih =>
      obtain ⟨rfl, hnext⟩ := ht
      exact (echoes_block h).bind fun b => ih b (hnext b)
  | init next ih =>
      obtain ⟨rfl, hnext⟩ := ht
      exact (echoes_forInit hl h).bind fun b => ih b (hnext b)
  | stmt next ih =>
      obtain ⟨rfl, hnext⟩ := ht
      exact (h.stmt early).bind fun x => ih x (hnext x)
  | ifNext k yes no _ ihyes ihno =>
      obtain ⟨hk, hyes, hno⟩ := ht
      cases reached with
      | true => exact accept_reaches hk (ihyes hyes) (ihno hno)
      | false => exact accept_bind (fun hstruct => by rw [hstruct] at hk; cases hk) (ihyes hyes) (ihno hno)

theorem echoes_stmtLayer (hl : l ≤ P.n) (h : P.Carries l inner inner') :
    P.Comes early l inner.stmtLayer inner'.stmtLayer := by
  rw [BlockParsers.stmtLayer_eq, BlockParsers.stmtLayer_eq]
  refine echoes_span (kind_bind fun k => ?_)
  have hexpr : P.Comes early l (StmtTail.expression.parser inner finish)
      (StmtTail.expression.parser inner' finish) := echoes_tail hl h _ StmtTail.fits_expression
  cases hk : StmtStart.of k with
  | word t =>
      obtain ⟨hstruct, ht⟩ := StmtStart.fits_word hk
      exact advance_bind hstruct (echoes_tail hl h t ht)
  | block => exact (echoes_tail hl h _ StmtTail.fits_compound).weaken fun _ _ hxy => hxy.near
  | expr => exact hexpr.weaken fun _ _ hxy => hxy.near
  | name text =>
      obtain rfl := StmtStart.eq_name hk
      refine lookahead_bind rfl fun k' => ?_
      by_cases hcolon : k' = .symbol .colon
      · subst hcolon
        exact advance_peek rfl (by simp) (advance_bind (by simp) (echoes_tail hl h _ (StmtTail.fits_label text)))
      · rw [if_neg hcolon, if_neg hcolon]
        exact hexpr.weaken fun _ _ hxy => hxy.1.near

theorem echoes_itemLayer (hl : l ≤ P.n) (h : P.Carries l inner inner') :
    P.Comes early l inner.itemLayer inner'.itemLayer := by
  refine startsType_bind fun starts => .ite (echoes_declaration hl h) ?_
  exact (echoes_stmtLayer hl h).bind fun s => echoes_return _

theorem carries_blockParsers (hl : l ≤ P.n) (k : Nat) : ∀ {k' : Nat}, k ≤ k' →
    P.Carries l (blockParsers k) (blockParsers k') := by
  induction k with
  | zero => exact fun hk => ⟨fun _ => echoes_giveUp, fun _ => echoes_giveUp, P.block _ _ hk⟩
  | succ k ih =>
      intro k' hk
      have hcross := P.block _ _ hk
      obtain ⟨k', rfl⟩ : ∃ j, k' = j + 1 := ⟨k' - 1, by omega⟩
      have hinner : P.Carries l (blockParsers k) (blockParsers k') := ih (by omega)
      exact ⟨fun _ => echoes_itemLayer hl hinner, fun _ => echoes_stmtLayer hl hinner, hcross⟩

end Statements

/-- **A script that is read across the parting is read as the same script in the other text.** -/
theorem echoes_script (hl : l ≤ P.n)
    (hscript : Crosses P.again P.n P.n' P.extra P.spot ⟨P.names, P.right⟩ scriptTurn scriptTurn) :
    Echoes P.n P.n' (P.Reaches early l) (fun _ => P.Near early l) never Parser.script Parser.script := by
  have hle := P.le
  have hlevels : P.Carries l (blockParsers (P.n + 2)) (blockParsers (P.n' + 2)) :=
    carries_blockParsers hl (P.n + 2) (by omega)
  have hdeclaration : ∀ early, P.Comes early l declaration declaration :=
    fun early x y hxy items s hs => echoes_declaration hl hlevels x y hxy items s hs
  rw [script_eq]
  refine echoes_span ((echoes_across (fun early items => at_bind fun ended => .ite (echoes_pure ?_) ?_)
    (fun _ => hscript) []).bind fun items => echoes_previous (echoes_return _))
  · exact fun x y h => h
  · refine startsType_bind fun starts => .ite ?_ (echoes_unexpected _)
    exact (hdeclaration early).bind fun more => echoes_again _

end Parting

end Jaf
