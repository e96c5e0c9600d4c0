import Jaf.Proofs.Parser.ExprPlaces

/-!
# What the places of declarations and statements cover

The rows that expressions are built as are put together to types, declarations, statements and blocks. A
place that runs from a first token to the one consumed last covers exactly what has been read in between
(`Stream.Covers.node`), which is how nearly all nodes get theirs. The declarators of one declaration are the
exception: all begin where their type does, so they do not follow one another as a row does, and are added
one by one (`VarDecl.SideBySide`). The end is that of a script: all of its tree lies in the script, one place
inside of the other (`Block.row_of_parse`).
-/

namespace Jaf

open Node

variable {m lo : Nat} {s t u : Stream Reader}

/-! ## Declarators -/

/-- Declarators that share the start and the type of their declaration, up to an offset. -/
structure VarDecl.SideBySide (lo hi : Nat) (type : Span) (ds : List VarDecl) : Prop where
  row : Row lo hi (ds.map .var)
  start : ∀ d ∈ ds, d.span.start = lo
  type : ∀ d ∈ ds, d.type.span = type

namespace VarDecl.SideBySide

variable {hi hi' : Nat} {type : Span} {ds : List VarDecl} {d : VarDecl}

theorem nil : SideBySide lo hi type [] :=
  ⟨.nil, fun _ h => absurd h List.not_mem_nil, fun _ h => absurd h List.not_mem_nil⟩

theorem widen (h : SideBySide lo hi type ds) (hle : hi ≤ hi') : SideBySide lo hi' type ds :=
  ⟨h.row.widen (Nat.le_refl lo) hle, h.start, h.type⟩

/-- One more declarator, with a name behind those before it. -/
theorem add (h : SideBySide lo hi type ds) (hspan : d.span = ⟨lo, hi'⟩) (htype : d.type.span = type)
    (hinit : ∀ x, d.init = some x → hi ≤ x.span.start) (hchildren : Row lo hi' (Node.var d).children)
    (hlo : lo ≤ hi') (hhi : hi < hi') : SideBySide lo hi' type (ds ++ [d]) := by
  have hd : Row lo hi' [.var d] := .node_at hspan hchildren hlo (Nat.le_refl lo) (Nat.le_refl hi')
  have hwiden := h.row.widen (Nat.le_refl lo) (Nat.le_of_lt hhi)
  refine ⟨⟨?_, ?_, ?_⟩, ?_, ?_⟩
  · rw [List.map_append]
    exact List.forall_mem_append.mpr ⟨hwiden.within, hd.within⟩
  · rw [List.map_append]
    refine List.pairwise_append.mpr ⟨hwiden.order, hd.order, ?_⟩
    intro x hx y hy
    obtain ⟨e, he, rfl⟩ := List.mem_map.mp hx
    obtain rfl := List.mem_singleton.mp hy
    have hstop : e.span.stop ≤ hi := (h.row.within (.var e) (List.mem_map_of_mem he)).2
    refine .siblings ⟨?_, ?_, ?_, fun x hx => Nat.le_trans hstop (hinit x hx)⟩
    · rw [h.start e he, hspan]
    · rw [h.type e he, htype]
    · rw [hspan]
      show e.span.stop < hi'
      omega
  · rw [List.map_append]
    exact List.forall_mem_append.mpr ⟨hwiden.nested, hd.nested⟩
  · exact List.forall_mem_append.mpr ⟨h.start, List.forall_mem_singleton.mpr (congrArg Span.start hspan)⟩
  · exact List.forall_mem_append.mpr ⟨h.type, List.forall_mem_singleton.mpr htype⟩

end VarDecl.SideBySide

/-- The type of the next declarator stands where the type of the first one does. -/
theorem TypeSpec.span_forNext (t : TypeSpec) : t.forNext.span = t.span := by
  unfold TypeSpec.forNext
  split <;> rfl

theorem Node.Row.forNext {hi : Nat} {t : TypeSpec} (h : Row lo hi [.type t]) :
    Row lo hi [.type t.forNext] := by
  obtain ⟨hlo, hle, hhi⟩ := h.bounds
  unfold TypeSpec.forNext
  split
  · exact .node_at rfl .nil hle hlo hhi
  · exact h

theorem Stream.Covers.forNext {type : TypeSpec} (h : s.Covers m [.type type] t) :
    s.Covers m [.type type.forNext] t := ⟨h.reads, h.row.forNext⟩

theorem Stream.Reads.of_same (h : s.Reads m t) (hu : u.InOrder m) (hprevious : u.previous = t.previous) :
    s.Reads m u := by
  have hstart := h.start
  have hstop := h.stop
  rw [← hprevious] at hstart hstop
  exact ⟨hu, hstart, hstop⟩

/-! ## Types and parameters -/

namespace Parser

theorem spans_members {inner : Parser Reader TypeSpec} (h : inner.Spans m fun t => [.type t]) :
    (members inner).Spans m fun ds => ds.map .var := by
  intro s hs
  refine .span ((h s hs).bind fun type t htype => .accept htype.reads.inOrder (fun u hu => ?_) ?_)
  · have hcovers := htype.read hu
    exact .previous (.pure (hcovers.node (n := .var (.plain none type _)) hcovers.reads.merge_eq))
  · refine After.bind (P := fun ds t => s.Covers m (ds.map .var) t) ?_ fun ds u hds =>
      .expect hds.reads.inOrder fun v hv => .pure (hds.read hv)
    -- from turn to turn: the type that the next member gets, and the members so far
    refine after_loop (I := fun r t => s.Covers m [.type r.1] t ∧ r.1.span = type.span ∧
      VarDecl.SideBySide s.current.span.start t.previous.stop type.span r.2) ?_ ⟨htype, rfl, .nil⟩
    rintro ⟨type', ds⟩ t ⟨htype', hspan, hds⟩
    have ht := htype'.reads.offsets
    refine .name htype'.reads.inOrder fun field u hu hname => .previous ?_
    have hu' := hu.offsets
    have hcovers := htype'.read hu
    have hreads := hcovers.reads.offsets
    have hadd := hds.add (d := .plain (some field) type' (s.current.span.merge u.previous))
      hcovers.reads.merge_eq hspan (fun x hx => by cases hx) hcovers.row (by omega) (by omega)
    refine .accept hu.inOrder (fun v hv => .pure ?_) (.pure ⟨hcovers.reads, hadd.row⟩)
    have hv' := hv.offsets
    exact ⟨(hcovers.read hv).forNext, (type'.span_forNext).trans hspan, hadd.widen (by omega)⟩

theorem after_structTail {inner : Parser Reader TypeSpec} (h : inner.Spans m fun t => [.type t])
    (ht : s.Reads m t) :
    (structTail inner s.current.span).After t fun type u => s.Covers m [.type type] u := by
  refine (after_name? ht.inOrder).bind fun tag u htag => ?_
  -- what follows the tag is the same whether the tag makes a type name or not
  extract_lets rest
  have hrest : ∀ v, s.Reads m v → (rest ()).After v fun type u => s.Covers m [.type type] u := by
    intro v hv
    refine .accept hv.inOrder (fun w hw => ?_) ?_
    · refine After.bind (P := fun ds t => s.Covers m (ds.map .var) t) ?_ fun ds x hds =>
        .expect hds.reads.inOrder fun y hy => .previous (.pure ?_)
      · refine after_loop (I := fun ds t => s.Covers m (ds.map .var) t) (fun ds x hds => .kind ?_)
          (hv.trans hw).covers
        split
        · exact .pure hds
        · exact after_failAt
        · refine (spans_members h x hds.reads.inOrder).bind fun more y hmore => .pure ?_
          have hadd := hds.append hmore
          rw [← List.map_append] at hadd
          exact hadd
      · have hcovers := hds.read hy
        exact hcovers.node (n := .type (.body tag ds _)) hcovers.reads.merge_eq
    · cases tag with
      | some text => exact .previous (.pure (hv.covers.node (n := .type (.named text _)) hv.merge_eq))
      | none => exact after_unexpected
  rcases htag with ⟨text, rfl, hu, _⟩ | ⟨rfl, rfl⟩
  · exact .addTypeName hu.inOrder fun v hv _ hprevious => hrest v ((ht.trans hu).of_same hv hprevious)
  · exact hrest u ht

theorem after_enumerators (ht : s.Reads m t) :
    (enumerators : Parser Reader Unit).After t fun _ u => s.Reads m u := by
  refine after_loop (I := fun _ u => s.Reads m u) (fun _ u hu => .at? fun _ => ?_) ht
  refine .ite (fun _ => .pure hu) fun _ => .name hu.inOrder fun _ v hv _ => ?_
  refine (after_accept hv.inOrder).bind fun _ w hw => ?_
  extract_lets rest
  have hrest : ∀ w, s.Reads m w →
      (rest ()).After w fun r w => Turn.Keeps (fun _ => s.Reads m w) (fun _ => s.Reads m w) r := fun w hw =>
    .accept hw.inOrder (fun x hx => .pure (hw.trans hx)) (.pure hw)
  rcases hw with ⟨rfl, hw⟩ | ⟨rfl, rfl⟩
  · exact (spans_conditional w hw.inOrder).bind fun _ x he =>
      hrest x (((hu.trans hv).trans hw).trans he.reads)
  · exact hrest w (hu.trans hv)

theorem after_enumTail (ht : s.Reads m t) :
    (enumTail s.current.span : Parser Reader TypeSpec).After t fun type u => s.Covers m [.type type] u := by
  refine After.bind (P := fun _ u => s.Reads m u) ?_ fun tag u hu => ?_
  · refine (after_name? ht.inOrder).mono fun tag u hu => ?_
    rcases hu with ⟨_, _, hu, _⟩ | ⟨_, rfl⟩
    · exact ht.trans hu
    · exact ht
  · refine (after_accept hu.inOrder).bind fun _ v hv => ?_
    extract_lets rest
    have hrest : ∀ v, s.Reads m v → (rest ()).After v fun type u => s.Covers m [.type type] u := fun v hv =>
      .previous (.pure (hv.covers.node (n := .type ⟨.enum, tag, none, none, _⟩) hv.merge_eq))
    rcases hv with ⟨rfl, hv⟩ | ⟨rfl, rfl⟩
    · exact (after_enumerators (hu.trans hv)).bind fun _ w hw => .expect hw.inOrder fun x hx =>
        hrest x (hw.trans hx)
    · exact hrest v hu

/-- A type of one token. -/
theorem covers_word {type : TypeSpec} (ht : s.Reads m t) (hprevious : t.previous = s.current.span)
    (hspan : type.span = s.current.span) (hmembers : type.members = none) : s.Covers m [.type type] t := by
  refine Stream.Covers.node ?_ ?_
  · show s.Covers m ((type.members.getD []).map .var) t
    rw [hmembers]
    exact ht.covers
  · show type.span = _
    rw [hspan, hprevious]

theorem spans_typeLayer {inner : Parser Reader TypeSpec} (h : inner.Spans m fun t => [.type t]) :
    (typeLayer inner).Spans m fun t => [.type t] := by
  intro s hs
  have hword : ∀ k : TypeKind, After (do
      advance
      return TypeSpec.simple k s.current.span) s fun type t => s.Covers m [.type type] t := fun k =>
    .advance hs fun t ht hprevious => .pure (covers_word ht hprevious rfl rfl)
  refine .span (.kind ?_)
  split
  · exact hword .void
  · exact hword .int
  · exact hword .float
  · exact hword .string
  · exact .advance hs fun t ht _ => after_structTail h ht
  · exact .advance hs fun t ht _ => after_enumTail ht
  · refine .isTypeName fun _ => .ite (fun _ => ?_) fun _ => after_unexpected
    exact .advance hs fun t ht hprevious => .pure (covers_word ht hprevious rfl rfl)
  · exact after_unexpected

theorem spans_typeSpec : (typeSpec : Parser Reader TypeSpec).Spans m fun t => [.type t] := by
  refine .atDepth fun n => ?_
  induction n with
  | zero => exact fun _ _ => after_giveUp
  | succ n ih => exact spans_typeLayer ih

theorem spans_parameters : (parameters : Parser Reader (List VarDecl)).Spans m fun ds => ds.map .var := by
  intro s hs
  refine .expect hs fun t ht => .accept ht.inOrder (fun u hu => .pure (ht.trans hu).covers) ?_
  refine After.bind (P := fun _ u => s.Reads m u) ?_ fun _ u hu => .ite (fun _ => ?_) fun _ => ?_
  · refine .at? fun _ => .ite (fun _ => ?_) fun _ => .pure ht
    exact .lookahead ht.inOrder fun _ u hu _ hprevious => .pure (ht.of_same hu hprevious)
  · exact .advance hu.inOrder fun v hv _ => .advance hv.inOrder fun w hw _ =>
      .pure ((hu.trans hv).trans hw).covers
  · refine After.bind (P := fun ds v => s.Covers m (ds.map .var) v) ?_ fun ds v hds =>
      .expect hds.reads.inOrder fun w hw => .pure (hds.read hw)
    refine after_loop (I := fun ds v => s.Covers m (ds.map .var) v) (fun ds v hds => .span ?_) hu.covers
    refine (spans_typeSpec v hds.reads.inOrder).bind fun type w htype => ?_
    -- a parameter ends with its name, or with its type if it has none
    refine After.bind (P := fun _ x => v.Covers m [.type type] x) ?_ fun label x hx => .previous ?_
    · refine (after_name? htype.reads.inOrder).mono fun _ x hx => ?_
      rcases hx with ⟨_, _, hx, _⟩ | ⟨_, rfl⟩
      · exact htype.read hx
      · exact htype
    · have hparam := hds.append (hx.node (n := .var (.plain label type _)) hx.reads.merge_eq)
      rw [← List.map_singleton, ← List.map_append] at hparam
      exact .accept hx.reads.inOrder (fun y hy => .pure (hparam.read hy)) (.pure hparam)

end Parser

/-! ## Declarations and statements -/

namespace BlockParsers

open Jaf.Parser

/-- The parsers that statements come back to build rows. -/
structure BuildRows (m : Nat) (inner : BlockParsers Reader) : Prop where
  item : inner.item.Spans m fun is => is.map ofItem
  stmt : inner.stmt.Spans m fun x => [.stmt x]

variable {inner : BlockParsers Reader}

theorem spans_block (h : inner.BuildRows m) : inner.block.Spans m fun b => [.block b] := by
  intro s hs
  refine .span (.expect hs fun t ht => ?_)
  refine After.bind (P := fun is u => s.Covers m (is.map ofItem) u) ?_ fun is u his =>
    .expect his.reads.inOrder fun v hv => .previous (.pure ?_)
  · refine after_loop (I := fun is u => s.Covers m (is.map ofItem) u) (fun is u his => .kind ?_) ht.covers
    split
    · exact .pure his
    · exact after_failAt
    · refine (h.item u his.reads.inOrder).bind fun more v hmore => .pure ?_
      have hadd := his.append hmore
      rw [← List.map_append] at hadd
      exact hadd
  · have hcovers := his.read hv
    exact hcovers.node (n := .block ⟨is, _⟩) hcovers.reads.merge_eq

/-- Where the declarators are read: the names so far lie before the last one, which has just been consumed. -/
structure Declaring (m : Nat) (s : Stream Reader) (place : Span) (type : TypeSpec) (items : List Item)
    (t : Stream Reader) : Prop where
  covers : s.Covers m [.type type] t
  type : type.span = place
  items : ∃ hi ds, items = ds.map .var ∧ hi < t.previous.stop ∧
    VarDecl.SideBySide s.current.span.start hi place ds

theorem after_declarators {type : TypeSpec} {first : String} (ht : s.Covers m [.type type] t)
    (hpos : 0 < t.previous.stop) :
    (declarators s.current.span type first).After t fun is u => s.Covers m (is.map ofItem) u := by
  refine After.bind (P := fun is u => s.Covers m (is.map ofItem) u) ?_ fun is u his =>
    .expect his.reads.inOrder fun v hv => .pure (his.read hv)
  refine after_loop (I := fun r u => Declaring m s type.span r.2.1 r.2.2 u) ?_
    ⟨ht, rfl, 0, [], rfl, hpos, .nil⟩
  rintro ⟨label, type', items⟩ u ⟨htype, hplace, hi, ds, rfl, hhi, hds⟩
  refine (after_accept htype.reads.inOrder).bind fun _ v hv => ?_
  extract_lets rest
  have hrest : ∀ (init : Option Expr) (v : Stream Reader), s.Covers m (.type type' :: ofOption init) v →
      (∀ x, init = some x → hi ≤ x.span.start) → hi < v.previous.stop → (rest init).After v fun r t =>
        Turn.Keeps (fun r => Declaring m s type.span r.2.1 r.2.2 t)
          (fun is => s.Covers m (is.map ofItem) t) r := by
    intro init v hcovers hinit hstop
    have hoffsets := hcovers.reads.offsets
    have hadd := hds.add (d := ⟨some label, type', init, none, s.current.span.merge v.previous⟩)
      hcovers.reads.merge_eq hplace hinit hcovers.row (by omega) hstop
    refine .previous ?_
    generalize VarDecl.mk (some label) type' init none (s.current.span.merge v.previous) = d at hadd ⊢
    have hitems : ds.map Item.var ++ [.var d] = (ds ++ [d]).map .var := by
      rw [List.map_append, List.map_singleton]
    refine .accept hcovers.reads.inOrder (fun w hw => .name hw.inOrder fun _ x hx hname => .pure ?_) (.pure ?_)
    · have hw' := hw.offsets
      have hx' := hx.offsets
      have htype' : s.Covers m [.type type'] v :=
        ⟨hcovers.reads, hcovers.row.sublist (List.singleton_sublist.mpr List.mem_cons_self)⟩
      exact ⟨((htype'.read hw).read hx).forNext, (type'.span_forNext).trans hplace, v.previous.stop, ds ++ [d],
        hitems, by omega, hadd⟩
    · exact ⟨hcovers.reads, by rw [hitems, List.map_map]; exact hadd.row⟩
  rcases hv with ⟨rfl, hv⟩ | ⟨rfl, rfl⟩
  · refine After.bind (P := fun init w => ∃ e, init = some e ∧ v.Covers m [.expr e] w)
      ((spans_assignment v hv.inOrder).bind fun e w he => .pure ⟨e, rfl, he⟩) ?_
    rintro _ w ⟨e, rfl, he⟩
    have hu' := htype.reads.offsets
    have hv' := hv.offsets
    have he' := he.reads.offsets
    have hbounds := he.row.expr_bounds
    refine hrest (some e) w (htype.append (hv.then he)) ?_ (by omega)
    rintro _ ⟨⟩
    omega
  · exact hrest none v htype (fun _ hx => by cases hx) hhi

theorem spans_declaration (h : inner.BuildRows m) : inner.declaration.Spans m fun is => is.map ofItem := by
  intro s hs
  refine .span ((spans_typeSpec s hs).bind fun type t htype => .accept htype.reads.inOrder (fun u hu => ?_) ?_)
  · have hcovers := htype.read hu
    exact .previous (.pure (hcovers.node (n := .var (.plain none type _)) hcovers.reads.merge_eq))
  · refine .name htype.reads.inOrder fun label u hu hname => .at? fun _ => .ite (fun _ => ?_) fun _ => ?_
    · refine (spans_parameters u hu.inOrder).bind fun params v hparams => ?_
      refine (spans_block h v hparams.reads.inOrder).bind fun body w hbody => .pure ?_
      have hcovers : s.Covers m ((.type type :: params.map .var) ++ [.block body]) w :=
        ((htype.read hu).append hparams).append hbody
      have hrow : Row s.current.span.start body.span.stop ((.type type :: params.map .var) ++ [.block body]) :=
        hcovers.row.to_last
      have ht' := htype.reads.offsets
      have hu' := hu.offsets
      have hv' := hparams.reads.offsets
      have hbounds : v.current.span.start ≤ body.span.start ∧ body.span.start ≤ body.span.stop ∧
        body.span.stop ≤ w.previous.stop := hbody.row.bounds
      have hspan : s.current.span.merge body.span = ⟨s.current.span.start, body.span.stop⟩ :=
        Span.merge_eq (by omega) (by omega)
      exact ⟨hcovers.reads, .node_at hspan hrow (by omega) (Nat.le_refl _) (by omega)⟩
    · have ht' := htype.reads.offsets
      have hu' := hu.offsets
      exact after_declarators (htype.read hu) (by omega)

theorem spans_forInit (h : inner.BuildRows m) : inner.forInit.Spans m fun b => [.block b] := by
  intro s hs
  refine .span (.startsType fun _ => ?_)
  extract_lets rest
  have hrest : ∀ is t, s.Covers m (is.map ofItem) t → (rest is).After t fun b u => s.Covers m [.block b] u :=
    fun is t his => .previous (.pure (his.node (n := .block ⟨is, _⟩) his.reads.merge_eq))
  refine .ite (fun _ => (spans_declaration h s hs).bind hrest) fun _ => ?_
  refine .accept hs (fun t ht => hrest [] t ht.covers) ?_
  refine (spans_expression s hs).bind fun e t he => .expect he.reads.inOrder fun u hu => hrest _ u ?_
  obtain ⟨hstart, hle, hstop⟩ := he.row.expr_bounds
  exact Stream.Covers.read ⟨he.reads, .node_at rfl he.row.expr_tight hle hstart hstop⟩ hu

theorem after_exprBefore {ns : List Node} {stop : Symbol} (ht : s.Covers m ns t) :
    (exprBefore stop : Parser Reader (Option Expr)).After t fun e u => s.Covers m (ns ++ ofOption e) u := by
  refine .at? fun _ => .ite (fun _ => .pure ?_) fun _ => ?_
  · rw [ofOption, Option.toList_none, List.map_nil, List.append_nil]
    exact ht
  · exact (spans_expression t ht.reads.inOrder).bind fun e u he => .pure (ht.append he)

/-- The parser of the place from the current token of a stream to the token consumed last. -/
def Finishes (m : Nat) (s : Stream Reader) (finish : Parser Reader Span) : Prop :=
  ∀ t, s.Reads m t → finish.After t fun p u => p = ⟨s.current.span.start, t.previous.stop⟩ ∧ u = t

theorem Finishes.of_current {finish : Parser Reader Span} (h : Finishes m s finish)
    (hcurrent : t.current = s.current) : Finishes m t finish := by
  intro u hu
  have hu' := hu.covers.of_current hcurrent
  rw [hcurrent]
  exact h u hu'.reads

/-- A statement whose children are all that has been read since its start. -/
theorem Finishes.stmt {finish : Parser Reader Span} (h : Finishes m s finish) {f : Span → Stmt}
    {ns : List Node} (ht : s.Covers m ns t) (hspan : ∀ p, (f p).span = p)
    (hchildren : ∀ p, (f p).children = ns) :
    After (do return f (← finish)) t fun x u => s.Covers m [.stmt x] u := by
  refine (h t ht.reads).bind fun p u hp => .pure ?_
  obtain ⟨rfl, rfl⟩ := hp
  refine Stream.Covers.node ?_ (hspan _)
  show s.Covers m (f _).children u
  rw [hchildren]
  exact ht

variable {finish : Parser Reader Span}

theorem spans_rule (rule : ExprRule) : (rule.parser : Parser Reader Expr).Spans m fun e => [.expr e] := by
  cases rule with
  | expression => exact spans_expression
  | conditional => exact spans_conditional
  | condition => exact spans_condition

/-- What is left of a statement covers what is read from here on, behind the nodes that have been read. -/
theorem after_tail (h : inner.BuildRows m) (hfinish : Finishes m s finish) {ns : List Node} (tail : StmtTail ns)
    (ht : s.Covers m ns t) : (tail.parser inner finish).After t fun x u => s.Covers m [.stmt x] u := by
  induction tail generalizing t with
  | done make span children => exact hfinish.stmt ht span children
  | expect k next _ ih => exact .expect ht.reads.inOrder fun u hu => ih (ht.read hu)
  | name next ih => exact .name ht.reads.inOrder fun text u hu _ => ih text (ht.read hu)
  | expr rule next ih => exact (spans_rule rule t ht.reads.inOrder).bind fun e u he => ih e (ht.append he)
  | option stop next ih =>
      exact (after_exprBefore ht).bind fun e u he => .expect he.reads.inOrder fun v hv => ih e (he.read hv)
  | block next ih => exact (spans_block h t ht.reads.inOrder).bind fun b u hb => ih b (ht.append hb)
  | init next ih => exact (spans_forInit h t ht.reads.inOrder).bind fun b u hb => ih b (ht.append hb)
  | stmt next ih => exact (h.stmt t ht.reads.inOrder).bind fun x u hx => ih x (ht.append hx)
  | ifNext k yes no _ ihyes ihno => exact .accept ht.reads.inOrder (fun u hu => ihyes (ht.read hu)) (ihno ht)

theorem after_compound (h : inner.BuildRows m) (hfinish : Finishes m s finish) (hs : s.InOrder m) :
    (StmtTail.compound.parser inner finish).After s fun x u => s.Covers m [.stmt x] u :=
  (spans_block h s hs).bind fun _ _ hb => after_tail h hfinish _ hb

theorem after_expression (h : inner.BuildRows m) (hfinish : Finishes m s finish) (hs : s.InOrder m) :
    (StmtTail.expression.parser inner finish).After s fun x u => s.Covers m [.stmt x] u :=
  (spans_expression s hs).bind fun _ _ he => after_tail h hfinish _ he

theorem spans_stmtLayer (h : inner.BuildRows m) : inner.stmtLayer.Spans m fun x => [.stmt x] := by
  rw [stmtLayer_eq]
  intro s hs
  refine .span ?_
  extract_lets finish
  have hfinish : Finishes m s finish := fun t ht => .previous (.pure ⟨ht.merge_eq, rfl⟩)
  refine .kind ?_
  cases StmtStart.of s.current.kind with
  | word tail => exact .advance hs fun _ ht _ => after_tail h hfinish tail ht.covers
  | block => exact after_compound h hfinish hs
  | expr => exact after_expression h hfinish hs
  | name text =>
      -- looking for a colon leaves the current token as it is
      refine .lookahead hs fun _ t ht hcurrent _ => ?_
      have hfinish := hfinish.of_current hcurrent
      refine .ite (fun _ => ?_) fun _ => (after_expression h hfinish ht).mono fun _ _ hx => hx.of_current hcurrent
      refine .advance ht fun u hu _ => .advance hu.inOrder fun v hv _ => ?_
      exact (after_tail h hfinish (.label text) (hu.trans hv).covers).mono fun _ _ hx => hx.of_current hcurrent

theorem spans_itemLayer (h : inner.BuildRows m) : inner.itemLayer.Spans m fun is => is.map ofItem := by
  intro s hs
  refine .startsType fun _ => .ite (fun _ => spans_declaration h s hs) fun _ => ?_
  exact (spans_stmtLayer h s hs).bind fun _ _ hx => .pure hx

end BlockParsers

theorem buildRows_blockParsers : ∀ n : Nat, (blockParsers n : BlockParsers Reader).BuildRows m := by
  intro n
  induction n with
  | zero => exact ⟨fun _ _ => Parser.after_giveUp, fun _ _ => Parser.after_giveUp⟩
  | succ n ih => exact ⟨BlockParsers.spans_itemLayer ih, BlockParsers.spans_stmtLayer ih⟩

/-! ## Scripts -/

namespace Parser

theorem spans_toplevel : (declaration : Parser Reader (List Item)).Spans m fun is => is.map ofItem :=
  .atDepth fun n => BlockParsers.spans_declaration (buildRows_blockParsers n)

theorem after_script (hs : s.InOrder m) :
    (script : Parser Reader Block).After s fun b _ => Row 0 m [.block b] := by
  refine .span (After.bind (P := fun is t => is = [] ∧ t = s ∨ s.Covers m (is.map ofItem) t) ?_
    fun is t his => .previous (.pure ?_))
  · refine after_loop (I := fun is t => is = [] ∧ t = s ∨ s.Covers m (is.map ofItem) t) ?_ (.inl ⟨rfl, rfl⟩)
    intro is t his
    have ht : t.InOrder m := by
      rcases his with ⟨_, rfl⟩ | his
      · exact hs
      · exact his.reads.inOrder
    refine .at? fun _ => .ite (fun _ => .pure his) fun _ => .startsType fun _ =>
      .ite (fun _ => ?_) fun _ => after_unexpected
    refine (spans_toplevel t ht).bind fun more u hmore => .pure (.inr ?_)
    rcases his with ⟨rfl, rfl⟩ | his
    · exact hmore
    · rw [List.map_append]
      exact his.append hmore
  · -- a script without declarations has the place from the start of the text to its end
    rcases his with ⟨rfl, rfl⟩ | his
    · have hoffsets := hs.offsets
      refine .node_at rfl .nil ?_ (Nat.zero_le _) ?_
      · omega
      · omega
    · have hoffsets := his.reads.offsets
      exact (his.node (n := .block ⟨is, _⟩) his.reads.merge_eq).row.widen (Nat.zero_le _) (by omega)

end Parser

/-- All of the tree of a script lies in the script, one place inside of the other. -/
theorem Block.row_of_parse {source : String} {b : Block} (h : Block.parse source = .ok b) :
    Row 0 source.utf8ByteSize [.block b] := by
  unfold Block.parse Parser.run at h
  split at h
  next first feed hnext =>
    obtain ⟨hproper, hstart, hfeed, _⟩ := (Reader.inOrder_ofSource source).next hnext
    have hs : Stream.InOrder source.utf8ByteSize ⟨first, feed, .point 0, []⟩ :=
      ⟨Nat.le_refl 0, hstart, hproper, hfeed⟩
    cases hscript : Parser.script ⟨first, feed, .point 0, []⟩ with
    | error e => rw [hscript] at h; cases h
    | ok r =>
        rw [hscript] at h
        cases h
        exact Parser.after_script hs r.1 r.2 hscript
  next => cases h

end Jaf
