import Jaf.Proofs.Parser.Provenance

/-!
# Scripts out of a stock

The walk through the grammar goes on from expressions to types, declarations, statements and scripts. It
ends in what the rest of the development uses: a parsed program is made of what its lexemes are made of, and
a script that does not parse is blamed at a place of the stock (`Block.from_parse`).
-/

namespace Jaf

variable {m : Stock}

namespace Parser

/-! ## Types and parameters -/

/-- One more declaration after those that have been read. -/
theorem from_plain {ds : List VarDecl} {name : Option String} {t : TypeSpec} {p : Span}
    (hds : ∀ d ∈ ds, d.From m) (hname : ∀ text, name = some text → m.name text) (ht : t.From m)
    (hp : m.span p) : ∀ d ∈ ds ++ [VarDecl.plain name t p], d.From m :=
  List.forall_mem_append.mpr ⟨hds, List.forall_mem_singleton.mpr (.plain hname ht hp)⟩

theorem draws_members {inner : Parser Reader TypeSpec} (h : inner.Draws m (·.From m)) :
    (members inner).Draws m fun ds => ∀ d ∈ ds, d.From m := by
  refine draws_span.bind fun start hstart => h.bind fun t ht => (draws_accept _).bind fun _ _ => .ite ?_ ?_
  · exact draws_previous.bind fun p hp => .pure
      (List.forall_mem_singleton.mpr (.plain (fun _ h => nomatch h) ht (m.merge hstart hp)))
  · refine Draws.bind (P := fun ds => ∀ d ∈ ds, d.From m) ?_ fun ds hds =>
      (draws_expect _).bind fun _ _ => .pure hds
    -- from turn to turn: the type that the next member gets, and the members so far
    refine draws_loop (I := fun r => r.1.From m ∧ ∀ d ∈ r.2, d.From m) ?_
      ⟨ht, fun _ hd => absurd hd List.not_mem_nil⟩
    rintro ⟨t, ds⟩ ⟨ht, hds⟩
    refine draws_name.bind fun field hfield => draws_previous.bind fun p hp => ?_
    have hadd : ∀ d ∈ ds ++ [VarDecl.plain (some field) t (start.merge p)], d.From m :=
      from_plain hds (by rintro _ ⟨⟩; exact hfield) ht (m.merge hstart hp)
    exact (draws_accept _).bind fun _ _ => .ite (.pure ⟨ht.forNext, hadd⟩) (.pure hadd)

theorem draws_structTail {inner : Parser Reader TypeSpec} (h : inner.Draws m (·.From m)) {start : Span}
    (hstart : m.span start) : (structTail inner start).Draws m (·.From m) := by
  refine draws_name?.bind fun tag htag => ?_
  -- what follows the tag is the same whether the tag makes a type name or not
  extract_lets rest
  have hrest : ∀ u, (rest u).Draws m (·.From m) := by
    intro u
    refine (draws_accept _).bind fun _ _ => .ite ?_ ?_
    · refine Draws.bind (P := fun ds => ∀ d ∈ ds, d.From m) ?_ fun ds hds =>
        (draws_expect _).bind fun _ _ => draws_previous.bind fun p hp => .pure ?_
      · refine draws_loop (I := fun ds => ∀ d ∈ ds, d.From m)
          (fun ds hds => draws_kind.bind fun k _ => ?_) fun _ hd => absurd hd List.not_mem_nil
        split
        · exact .pure hds
        · exact draws_failAt hstart
        · exact (draws_members h).bind fun more hmore =>
            .pure (List.forall_mem_append.mpr ⟨hds, hmore⟩)
      · refine .mk (m.merge hstart hp) htag fun ds' hds' => ?_
        cases hds'
        exact hds
    · split
      · exact draws_previous.bind fun p hp => .pure (.plain (m.merge hstart hp) htag)
      · exact draws_unexpected
  split
  · exact (draws_addTypeName _).bind fun u _ => hrest u
  · exact hrest ()

theorem draws_enumerators : (enumerators : Parser Reader Unit).Draws m fun _ => True := by
  refine draws_loop (I := fun _ => True) (fun _ _ => ?_) trivial
  refine (draws_at _).bind fun _ _ => .ite (.pure trivial) (draws_name.bind fun _ _ => ?_)
  refine (draws_accept _).bind fun _ _ => ?_
  extract_lets rest
  have hrest : ∀ u, (rest u).Draws m (Turn.Keeps (fun _ => True) fun _ => True) := fun u =>
    (draws_accept _).bind fun _ _ => .ite (.pure trivial) (.pure trivial)
  exact .ite (draws_conditional.bind fun _ _ => hrest ()) (hrest ())

theorem draws_enumTail {start : Span} (hstart : m.span start) :
    (enumTail start : Parser Reader TypeSpec).Draws m (·.From m) := by
  refine draws_name?.bind fun tag htag => (draws_accept _).bind fun _ _ => ?_
  extract_lets rest
  have hrest : ∀ u, (rest u).Draws m (·.From m) := fun u =>
    draws_previous.bind fun p hp => .pure (.plain (m.merge hstart hp) htag)
  exact .ite (draws_enumerators.bind fun _ _ => (draws_expect _).bind fun u _ => hrest u) (hrest ())

theorem draws_typeSpecN : ∀ n : Nat, (typeSpecN n : Parser Reader TypeSpec).Draws m (·.From m) := by
  intro n
  induction n with
  | zero => exact draws_giveUp
  | succ n ih =>
      refine draws_span.bind fun start hstart => ?_
      extract_lets word
      have hword : ∀ k : TypeKind, (word k).Draws m (·.From m) := fun k =>
        draws_advance.bind fun _ _ => .pure (.plain hstart fun _ h => nomatch h)
      refine draws_kind.bind fun k hk => ?_
      split
      · exact hword .void
      · exact hword .int
      · exact hword .float
      · exact hword .string
      · exact draws_advance.bind fun _ _ => draws_structTail ih hstart
      · exact draws_advance.bind fun _ _ => draws_enumTail hstart
      next text =>
        refine (draws_isTypeName _).bind fun known _ => .ite ?_ draws_unexpected
        exact draws_advance.bind fun _ _ =>
          .pure (.plain hstart (by rintro _ ⟨⟩; exact hk text rfl))
      · exact draws_unexpected

theorem draws_typeSpec : (typeSpec : Parser Reader TypeSpec).Draws m (·.From m) :=
  .atDepth draws_typeSpecN

theorem draws_atLoneVoid : (atLoneVoid : Parser Reader Bool).Draws m fun _ => True :=
  (draws_at _).bind fun _ _ => .ite (draws_lookahead.bind fun _ _ => .pure trivial) (.pure trivial)

theorem draws_parameters :
    (parameters : Parser Reader (List VarDecl)).Draws m fun ds => ∀ d ∈ ds, d.From m := by
  have hnil : ∀ d ∈ ([] : List VarDecl), d.From m := fun _ hd => absurd hd List.not_mem_nil
  refine (draws_expect _).bind fun _ _ => (draws_accept _).bind fun _ _ => .ite (.pure hnil) ?_
  refine draws_atLoneVoid.bind fun _ _ => .ite ?_ ?_
  · exact draws_advance.bind fun _ _ => draws_advance.bind fun _ _ => .pure hnil
  · refine Draws.bind (P := fun ds => ∀ d ∈ ds, d.From m) ?_ fun ds hds =>
      (draws_expect _).bind fun _ _ => .pure hds
    refine draws_loop (I := fun ds => ∀ d ∈ ds, d.From m) (fun ds hds => ?_) hnil
    refine draws_span.bind fun start hstart => draws_typeSpec.bind fun t ht => ?_
    refine draws_name?.bind fun label hlabel => draws_previous.bind fun p hp => ?_
    have hadd := from_plain hds hlabel ht (m.merge hstart hp)
    exact (draws_accept _).bind fun _ _ => .ite (.pure hadd) (.pure hadd)

end Parser

/-! ## Declarations and statements -/

namespace BlockParsers

open Jaf.Parser

/-- The parsers that statements and declarations come back to draw from the stock. -/
structure Draw (m : Stock) (inner : BlockParsers Reader) : Prop where
  item : inner.item.Draws m (Item.AllFrom m)
  stmt : inner.stmt.Draws m (·.From m)

variable {inner : BlockParsers Reader}

theorem draws_block (h : inner.Draw m) : inner.block.Draws m (·.From m) := by
  refine draws_span.bind fun start hstart => (draws_expect _).bind fun _ _ => ?_
  refine Draws.bind (P := Item.AllFrom m) ?_ fun is his => (draws_expect _).bind fun _ _ =>
    draws_previous.bind fun p hp => .pure ⟨m.merge hstart hp, his⟩
  refine draws_loop (I := Item.AllFrom m) (fun is his => draws_kind.bind fun k _ => ?_) .nil
  split
  · exact .pure his
  · exact draws_failAt hstart
  · exact h.item.bind fun more hmore => .pure (his.append hmore)

theorem draws_declarators {start : Span} (hstart : m.span start) {t : TypeSpec} (ht : t.From m)
    {first : String} (hfirst : m.name first) :
    (declarators start t first : Parser Reader (List Item)).Draws m (Item.AllFrom m) := by
  refine Draws.bind (P := Item.AllFrom m) ?_ fun is his => (draws_expect _).bind fun _ _ => .pure his
  -- from turn to turn: the next name, the type that it gets, and the items so far
  refine draws_loop (I := fun r => m.name r.1 ∧ r.2.1.From m ∧ Item.AllFrom m r.2.2) ?_
    ⟨hfirst, ht, .nil⟩
  rintro ⟨label, t, is⟩ ⟨hlabel, ht, his⟩
  refine (draws_accept _).bind fun _ _ => ?_
  extract_lets rest
  have hrest : ∀ init : Option Expr, (∀ e, init = some e → e.From m) → (rest init).Draws m
      (Turn.Keeps (fun r => m.name r.1 ∧ r.2.1.From m ∧ Item.AllFrom m r.2.2) (Item.AllFrom m)) := by
    intro init hinit
    refine draws_previous.bind fun p hp => (draws_accept _).bind fun _ _ => ?_
    have hvar : VarDecl.From m ⟨some label, t, init, none, start.merge p⟩ :=
      ⟨⟨m.merge hstart hp, by rintro _ ⟨⟩; exact hlabel, hinit⟩, ht⟩
    have hadd := his.append (.var hvar)
    exact .ite (draws_name.bind fun next hnext => .pure ⟨hnext, ht.forNext, hadd⟩) (.pure hadd)
  refine .ite ?_ ?_
  · refine Draws.bind (P := fun init => ∀ e, init = some e → e.From m) ?_ hrest
    exact draws_assignment.bind fun e he => .pure (by rintro _ ⟨⟩; exact he)
  · exact (Draws.pure (Q := fun init => ∀ e, init = some e → e.From m) fun _ h => nomatch h).bind hrest

theorem draws_declaration (h : inner.Draw m) : inner.declaration.Draws m (Item.AllFrom m) := by
  refine draws_span.bind fun start hstart => draws_typeSpec.bind fun t ht =>
    (draws_accept _).bind fun _ _ => .ite ?_ ?_
  · exact draws_previous.bind fun p hp =>
      .pure (.var (.plain (fun _ h => nomatch h) ht (m.merge hstart hp)))
  · refine draws_name.bind fun label hlabel => (draws_at _).bind fun _ _ =>
      .ite ?_ (draws_declarators hstart ht hlabel)
    refine draws_parameters.bind fun ds hds => (draws_block h).bind fun body hbody => .pure ?_
    have hhead : FuncHead.From m ⟨label, t, ds, none, start.merge body.span⟩ :=
      ⟨m.merge hstart hbody.span, hlabel, ht, hds⟩
    intro p hp
    simp only [Item.partsOf, Item.parts, List.append_nil, List.mem_append, List.mem_singleton] at hp
    rcases hp with rfl | hp | rfl
    · exact hhead
    · exact hbody.parts p hp
    · exact trivial

theorem draws_forInit (h : inner.Draw m) : inner.forInit.Draws m (·.From m) := by
  refine draws_span.bind fun start hstart => draws_startsType.bind fun _ _ => ?_
  extract_lets rest
  have hrest : ∀ is, Item.AllFrom m is → (rest is).Draws m (·.From m) := fun is his =>
    draws_previous.bind fun p hp => .pure ⟨m.merge hstart hp, his⟩
  refine .ite ((draws_declaration h).bind hrest) ((draws_accept _).bind fun _ _ => .ite ?_ ?_)
  · exact hrest [] .nil
  · refine draws_expression.bind fun e he => (draws_expect _).bind fun _ _ => hrest _ ?_
    intro p hp
    obtain rfl : p = .value e := by simpa using hp
    exact he

theorem draws_exprBefore (stop : Symbol) : (exprBefore stop : Parser Reader (Option Expr)).Draws m
    fun e => ∀ x, e = some x → x.From m := by
  refine (draws_at _).bind fun _ _ => .ite (.pure fun _ h => nomatch h) ?_
  exact draws_expression.bind fun e he => .pure (by rintro _ ⟨⟩; exact he)

end BlockParsers

/-- A node that a statement can have, out of the stock. -/
def Node.From (m : Stock) : Node → Prop
  | expr e => e.From m
  | stmt x => x.From m
  | block b => b.From m
  | _ => True

theorem Clause.from_nodes {c : Clause} (hspan : ∀ p e, c = .result p e → m.span p)
    (h : ∀ n ∈ c.nodes, n.From m) : ∀ p ∈ c.parts, p.From m := by
  have hoption : ∀ e : Option Expr, (∀ n ∈ Node.ofOption e, n.From m) → ∀ x, e = some x → x.From m := by
    rintro _ he x rfl
    exact he (.expr x) (List.mem_singleton.mpr rfl)
  cases c with
  | value e => exact Part.from_option (hoption e h)
  | result p e => exact List.forall_mem_singleton.mpr ⟨hspan p e rfl, hoption e h⟩
  | scope b => exact Part.from_within.mpr (Block.From.parts (h (.block b) (List.mem_singleton.mpr rfl)))
  | opening b => exact Block.From.parts (h (.block b) (List.mem_singleton.mpr rfl))
  | inner x => exact h (.stmt x) (List.mem_singleton.mpr rfl)

/-- A statement comes out of the stock if its place and its children do. -/
theorem Stmt.from_children {x : Stmt} (hspan : m.span x.span) (h : ∀ n ∈ x.children, n.From m) : x.From m := by
  have hclauses : ∀ p ∈ x.clauses.flatMap Clause.parts, p.From m := by
    intro p hp
    obtain ⟨c, hc, hp⟩ := List.mem_flatMap.mp hp
    refine Clause.from_nodes (fun q e hq => ?_) (fun n hn => h n (mem_children.mpr ⟨c, hc, hn⟩)) p hp
    subst hq
    exact span_result hc ▸ hspan
  unfold Stmt.From
  rw [parts_clauses]
  split
  · exact Part.from_within.mpr hclauses
  · exact hclauses

namespace BlockParsers

open Jaf.Parser

variable {inner : BlockParsers Reader} {finish : Parser Reader Span}

theorem draws_rule (rule : ExprRule) : (rule.parser : Parser Reader Expr).Draws m (·.From m) := by
  cases rule with
  | expression => exact draws_expression
  | conditional => exact draws_conditional
  | condition => exact draws_condition

theorem draws_tail (h : inner.Draw m) (hfinish : finish.Draws m m.span) {ns : List Node} (t : StmtTail ns)
    (hns : ∀ n ∈ ns, n.From m) : (t.parser inner finish).Draws m (·.From m) := by
  induction t with
  | done make span children =>
      refine hfinish.bind fun p hp => .pure (Stmt.from_children ?_ ?_)
      · rw [span]
        exact hp
      · rw [children]
        exact hns
  | expect k next _ ih => exact (draws_expect k).bind fun _ _ => ih hns
  | name next ih => exact draws_name.bind fun text _ => ih text hns
  | expr rule next ih => exact (draws_rule rule).bind fun e he => ih e (Node.forall_mem_concat hns he)
  | option stop next ih =>
      exact (draws_exprBefore stop).bind fun e he => (draws_expect _).bind fun _ _ =>
        ih e (Node.forall_mem_option hns he)
  | block next ih => exact (draws_block h).bind fun b hb => ih b (Node.forall_mem_concat hns hb)
  | init next ih => exact (draws_forInit h).bind fun b hb => ih b (Node.forall_mem_concat hns hb)
  | stmt next ih => exact h.stmt.bind fun x hx => ih x (Node.forall_mem_concat hns hx)
  | ifNext k yes no _ ihyes ihno => exact (draws_accept k).bind fun _ _ => .ite (ihyes hns) (ihno hns)

theorem draws_stmtLayer (h : inner.Draw m) : inner.stmtLayer.Draws m (·.From m) := by
  rw [stmtLayer_eq]
  refine draws_span.bind fun start hstart => draws_kind.bind fun k _ => ?_
  have htail : ∀ t, (StmtTail.parser inner (do return start.merge (← previous)) t).Draws m (·.From m) :=
    fun t => draws_tail h (draws_finish hstart) t fun _ hn => absurd hn List.not_mem_nil
  cases StmtStart.of k with
  | word t => exact draws_advance.bind fun _ _ => htail t
  | block => exact htail .compound
  | expr => exact htail .expression
  | name text =>
      refine draws_lookahead.bind fun _ _ => .ite ?_ (htail .expression)
      exact draws_advance.bind fun _ _ => draws_advance.bind fun _ _ => htail (.label text)

theorem draws_itemLayer (h : inner.Draw m) : inner.itemLayer.Draws m (Item.AllFrom m) := by
  refine draws_startsType.bind fun _ _ => .ite (draws_declaration h) ?_
  refine (draws_stmtLayer h).bind fun x hx => .pure ?_
  intro p hp
  simp only [Item.partsOf, Item.parts, List.append_nil] at hp
  exact hx p hp

end BlockParsers

theorem draw_blockParsers : ∀ n : Nat, (blockParsers n : BlockParsers Reader).Draw m := by
  intro n
  induction n with
  | zero => exact ⟨Parser.draws_giveUp, Parser.draws_giveUp⟩
  | succ n ih => exact ⟨BlockParsers.draws_itemLayer ih, BlockParsers.draws_stmtLayer ih⟩

/-! ## Whole scripts -/

namespace Parser

theorem draws_script : (script : Parser Reader Block).Draws m (·.From m) := by
  refine draws_span.bind fun start hstart => Draws.bind (P := Item.AllFrom m) ?_ fun is his =>
    draws_previous.bind fun p hp => .pure ⟨m.merge hstart hp, his⟩
  refine draws_loop (I := Item.AllFrom m) (fun is his => ?_) .nil
  refine (draws_at _).bind fun _ _ => .ite (.pure his) (draws_startsType.bind fun _ _ =>
    .ite ?_ draws_unexpected)
  refine Draws.bind (P := Item.AllFrom m) ?_ fun more hmore => .pure (his.append hmore)
  exact .atDepth fun n => BlockParsers.draws_declaration (draw_blockParsers n)

/-- A run reads all its lexemes from the reader, and counts as having read up to the start before. -/
theorem Draws.run {α : Type} {p : Parser Reader α} {Q : α → Prop} (hp : p.Draws m Q)
    (hstart : m.span (.point 0)) {r : Reader} (hr : r.From m) :
    (∀ a, p.run r = .ok a → Q a) ∧ ∀ e, p.run r = .error e → m.span e.span := by
  obtain ⟨hx, hr'⟩ := hr.next
  have hnext : Feed.next r = r.next := rfl
  unfold Parser.run
  rw [hnext]
  generalize r.next = next at hx hr'
  obtain ⟨x, r'⟩ := next
  cases x with
  | error b =>
      refine ⟨fun a ha => (nomatch ha), fun e he => ?_⟩
      cases he
      exact hx.span
  | ok t =>
      have hs : Stream.From m ⟨t, r', .point 0, []⟩ := ⟨hx.token, hstart, hr'⟩
      dsimp only
      cases hrun : p ⟨t, r', .point 0, []⟩ with
      | ok r =>
          refine ⟨fun a ha => ?_, fun e he => (nomatch he)⟩
          cases ha
          exact (hp.ok hs hrun).1
      | error e' =>
          refine ⟨fun a ha => (nomatch ha), fun e he => ?_⟩
          cases he
          exact hp.error hs hrun

end Parser

/-- The reader of a script hands out what is in its scan, and the end of file. -/
theorem Reader.from_ofSource {source : String} (hscan : ∀ x ∈ Lexeme.scan source, Lexeme.From m x)
    (hlast : m.span (.point source.utf8ByteSize)) : (Reader.ofSource source).From m where
  pending := hscan
  ahead _ h := nomatch h
  last := ⟨fun _ h => (nomatch h), hlast⟩

/-- **A parsed program is made of what its lexemes are made of**, and failing to parse blames such a place. -/
theorem Block.from_parse {source : String} (hscan : ∀ x ∈ Lexeme.scan source, Lexeme.From m x)
    (hstart : m.span (.point 0)) (hlast : m.span (.point source.utf8ByteSize)) :
    (∀ b, Block.parse source = .ok b → b.From m) ∧
      ∀ e, Block.parse source = .error e → m.span e.span :=
  Parser.draws_script.run hstart (Reader.from_ofSource hscan hlast)

end Jaf
