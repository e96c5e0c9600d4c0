import Jaf.Proofs.Analysis.CheckPlaceIndependence
import Jaf.Proofs.Parser.DeclarationLoops
import Jaf.Proofs.Parser.TokenKinds

/-!
# A list of declarators and one declaration for each

The main statement of this file is `Block.list_or_separate`: in a script a list of declarators may be replaced by
a declaration for each of them, and the other way round, wherever a declaration can begin.

The two scripts part where the declaration begins. To get from the list to the pieces, the second run may take a
turn more for each variable (`Declaration.splitting`); to get back, the first run is the one that takes more turns
(`Declaration.joining`). What is read in one direction is read in the other, so both scripts are parsed as the same
tree up to places, or neither is parsed. Analysis does not look at places, and leaves the same tables.
-/

namespace Jaf

open Jaf.Parser

namespace Declaration

variable {n : Nat} {ns : List String} {d : Declaration}

/-! ## The list and its pieces part from each other -/

variable {α : Type} {n' : Nat} {f g : List α → Parser Ribbon (Turn (List α) (List α))}

/-- The loops take the declaration with the same result, or the first one refuses it. -/
def Settled (n n' : Nat) (f g : List α → Parser Ribbon (Turn (List α) (List α))) (d : Declaration)
    (ns : List String) : Prop :=
  d.Refused n f ns ∨ ∃ is ns', d.Taken n f ns is ns' ∧ d.Taken n' g ns is ns'

theorem Settled.splits (h : d.Settled n n' f g ns) (after : List Token.Kind) :
    Crosses True n n' d.pieces.length ⟨ns, d.joined ++ after⟩ ⟨ns, d.separate ++ after⟩ f g := by
  rcases h with h | ⟨is, ns', hf, hg⟩
  · exact fun acc m r hr => absurd hr (h.joined after m acc r)
  · exact hf.splits hg after

theorem Settled.joins (h : d.Settled n n' f g ns) (after : List Token.Kind) :
    Crosses True n n' 1 ⟨ns, d.separate ++ after⟩ ⟨ns, d.joined ++ after⟩ f g := by
  rcases h with h | ⟨is, ns', hf, hg⟩
  · exact fun acc m r hr => absurd hr (h.separate after m acc r)
  · exact hf.joins hg after

/-- The declaration can be read where the given struct names are known, with the given bound. -/
structure Fits (d : Declaration) (ns : List String) (n : Nat) : Prop where
  items : ∃ items, d.items? ns = some items
  eof : .eof ∉ d.joined
  length : d.joined.length ≤ n

theorem Fits.settled_script (h : d.Fits ns n) (hn : n ≤ n') :
    d.Settled n n' scriptTurn scriptTurn ns := by
  obtain ⟨items, hd⟩ := h.items
  obtain ⟨t, ns', _, _, _, _, ht, _⟩ := gather_eq_some hd
  exact .inr ⟨items, ns', taken_script hd ht h.eof h.length,
    taken_script hd ht h.eof (Nat.le_trans h.length hn)⟩

theorem Fits.settled_block (h : d.Fits ns n) (hn : n ≤ n') {k k' : Nat} (hk : k ≤ k') :
    d.Settled n n' ((blockParsers k).blockTurn .nowhere) ((blockParsers k').blockTurn .nowhere) ns := by
  obtain ⟨items, hd⟩ := h.items
  obtain ⟨t, ns', _, _, _, _, ht, _⟩ := gather_eq_some hd
  cases k with
  | zero => exact .inl refused_block
  | succ k =>
      obtain ⟨k', rfl⟩ : ∃ j, k' = j + 1 := ⟨k' - 1, by omega⟩
      exact .inr ⟨items, ns', taken_block k hd ht h.eof h.length,
        taken_block k' hd ht h.eof (Nat.le_trans h.length hn)⟩

theorem Fits.settled_body (h : d.Fits ns n) (hn : n ≤ n') {k k' : Nat} (hd : d.type.tokens.length + 2 ≤ k)
    (hk : k ≤ k') :
    d.Settled n n' (bodyTurn (typeSpecN k) .nowhere) (bodyTurn (typeSpecN k') .nowhere) ns := by
  obtain ⟨items, hitems⟩ := h.items
  obtain ⟨t, ns', t', ns'', _, _, ht, ht', _⟩ := gather_eq_some hitems
  by_cases hinit : ∃ e ∈ d.first :: d.rest, e.init ≠ none
  · exact .inl (refused_body hinit ht ht' h.eof h.length hd)
  · have hbare : ∀ e ∈ d.first :: d.rest, e.init = none :=
      fun e he => Classical.byContradiction fun h => hinit ⟨e, he, h⟩
    obtain ⟨decls, hdecls⟩ := gather_member hbare ht ht'
    exact .inr ⟨decls, ns', taken advances_body readsLists_members hdecls ht h.eof h.length hd,
      taken advances_body readsLists_members hdecls ht h.eof (Nat.le_trans h.length hn) (Nat.le_trans hd hk)⟩

/-- A declaration that begins with a name has another name behind it. -/
theorem second_joined (d : Declaration) (after : List Token.Kind) (text : String)
    (h : (d.joined ++ after).headD .eof = .name text) :
    ∃ label, (d.joined ++ after).tail.headD .eof = .name label := by
  obtain ⟨T, first, rest⟩ := d
  cases T with
  | known name => exact ⟨first.name, rfl⟩
  | _ => cases h

/-- From the list to its pieces. -/
def splitting (d : Declaration) (after : List Token.Kind) (h : d.Fits ns n) (hn : n + d.pieces.length ≤ n') :
    Parting where
  n := n
  n' := n'
  extra := d.pieces.length
  le := hn
  again := True
  names := ns
  left := d.joined ++ after
  right := d.separate ++ after
  opens := Token.Kind.isBreak_of_opensType (opens_joined d ns after)
  opens_right := Token.Kind.isBreak_of_opensType (opens_separate d ns after)
  second := second_joined d after
  block k k' hk := (h.settled_block (by omega) hk).splits after
  body k k' hleft hk := by
    have hlength := d.length_type
    rw [List.length_append] at hleft
    exact (h.settled_body (by omega) (by omega) hk).splits after

/-- From the pieces to the list. -/
def joining (d : Declaration) (after : List Token.Kind) (h : d.Fits ns n) (hn : n + 1 ≤ n') :
    Parting where
  n := n
  n' := n'
  extra := 1
  le := hn
  again := True
  names := ns
  left := d.separate ++ after
  right := d.joined ++ after
  opens := Token.Kind.isBreak_of_opensType (opens_separate d ns after)
  opens_right := Token.Kind.isBreak_of_opensType (opens_joined d ns after)
  second := by
    rw [separate_eq, List.append_assoc]
    exact second_joined _ _
  block k k' hk := (h.settled_block (by omega) hk).joins after
  body k k' hleft hk := by
    have hlength : d.type.tokens.length + 2 ≤ (joined ⟨d.type, d.first, []⟩).length :=
      length_type ⟨d.type, d.first, []⟩
    rw [separate_eq, List.length_append, List.length_append] at hleft
    exact (h.settled_body (by omega) (by omega) hk).joins after

end Declaration

/-! ## Whole texts -/

/-- A declaration can begin behind the tokens: there are none, or the last one is a semicolon or a brace. -/
def Token.Kind.atEdge (ks : List Token.Kind) : Bool := ks.getLast?.all isEdge

/-- A script that goes on as the first text is read as one that goes on as the second. -/
theorem Parting.reads_script (P : Parting) {before : List Token.Kind}
    (hscript : Crosses P.again P.n P.n' P.extra P.spot ⟨P.names, P.right⟩ scriptTurn scriptTurn)
    (hedge : Token.Kind.atEdge before = true) (heof : .eof ∉ before) (hnames : structNames [] before = P.names)
    (hlength : (before ++ P.left).length ≤ P.n) {b : Block} {s : Stream Ribbon}
    (h : Parser.script (Spot.stream P.n ⟨[], before ++ P.left⟩) = .ok (b, s)) :
    ∃ s', Parser.script (Spot.stream P.n' ⟨[], before ++ P.right⟩) = .ok (b, s') := by
  have hstart : P.Reaches true P.n ⟨[], before ++ P.left⟩ ⟨[], before ++ P.right⟩ := by
    rcases List.eq_nil_or_concat before with rfl | ⟨ks, k, rfl⟩
    · refine .inr ⟨rfl, hlength, ?_, ?_⟩
      · rw [spot, ← hnames]
        rfl
      · rw [← hnames]
        rfl
    · rw [List.concat_eq_append] at *
      have hk : k.isEdge = true := by
        rw [Token.Kind.atEdge, List.getLast?_append] at hedge
        exact hedge
      rw [structNames_append_edge hk] at hnames
      have hks : .eof ∉ ks := fun h => heof (List.mem_append_left _ h)
      exact .inl ⟨hlength, .inl ⟨rfl, ks, k, hk, hks, by simp, by simp, rfl, hnames⟩⟩
  obtain ⟨x, rfl, ⟨y, hy, _⟩ | hl⟩ := echoes_script (Nat.le_refl P.n) hscript _ _ hstart b s h
  · exact ⟨_, hy⟩
  · exact hl.elim

namespace Declaration

variable {source source' : String} {before after : List Token.Kind} {d : Declaration} {items : List Item}

/-- **In a script, a list of declarators and its pieces are read as the same.** -/
theorem parse_separate (hedge : Token.Kind.atEdge before = true)
    (hitems : d.items? (structNames [] before) = some items)
    (hjoined : Lexeme.kinds source = .ok (before ++ d.joined ++ after ++ [.eof]))
    (hseparate : Lexeme.kinds source' = .ok (before ++ d.separate ++ after ++ [.eof])) :
    (Block.parse source).toOption.map Block.placeless = (Block.parse source').toOption.map Block.placeless := by
  rw [List.append_assoc before] at hjoined hseparate
  obtain ⟨heof, hparse⟩ := Block.parse_kinds hjoined
  obtain ⟨_, hparse'⟩ := Block.parse_kinds hseparate
  obtain ⟨n, hn, hn'⟩ : ∃ n, (before ++ (d.joined ++ after)).length ≤ n ∧
      (before ++ (d.separate ++ after)).length ≤ n := ⟨_, Nat.le_max_left _ _, Nat.le_max_right _ _⟩
  have hbefore : .eof ∉ before := fun h => heof (List.mem_append_left _ h)
  have hfits : d.Fits (structNames [] before) n := by
    refine ⟨⟨items, hitems⟩, fun h => heof ?_, ?_⟩
    · exact List.mem_append_right _ (List.mem_append_left _ h)
    · simp only [List.length_append] at hn
      omega
  have hsome : ∀ (n : Nat) (ks : List Token.Kind) (b : Block),
      (script (Spot.stream n ⟨[], ks⟩)).toOption.map (·.1) = some b ↔
        ∃ s, script (Spot.stream n ⟨[], ks⟩) = .ok (b, s) := by
    intro n ks b
    cases script (Spot.stream n ⟨[], ks⟩) with
    | error e => simp [Except.toOption]
    | ok r => simp [Except.toOption, Prod.ext_iff]
  refine Option.ext fun b => ⟨fun h => ?_, fun h => ?_⟩
  · rw [hparse n hn, hsome] at h
    obtain ⟨s, hs⟩ := h
    rw [hparse' (n + d.pieces.length) (by omega), hsome]
    exact (d.splitting after hfits (Nat.le_refl _)).reads_script
      ((hfits.settled_script (Nat.le_add_right n _)).splits after) hedge hbefore rfl hn hs
  · rw [hparse' n hn', hsome] at h
    obtain ⟨s, hs⟩ := h
    rw [hparse (n + 1) (by omega), hsome]
    exact (d.joining after hfits (Nat.le_refl _)).reads_script
      ((hfits.settled_script (Nat.le_add_right n 1)).joins after) hedge hbefore rfl hn' hs

/-! ### The declaration by itself -/

/-- The items that a text is read as, where the given names are those of structs. -/
def itemsOf (names : List String) (ks : List Token.Kind) : Option (List Item) :=
  (script.wholly names ks).map fun r => r.1.items

theorem itemsOf_turns {ns ns' : List String} {ks : List Token.Kind} {j : Nat} (hj : j ≤ ks.length + 1)
    (h : ∀ after m acc, loopN scriptTurn (m + j) acc (Spot.stream ks.length ⟨ns, ks ++ after⟩) =
      loopN scriptTurn m (acc ++ items) (Spot.stream ks.length ⟨ns', after⟩)) :
    itemsOf ns ks = some items := by
  have hloop : loop scriptTurn [] (Spot.stream ks.length ⟨ns, ks⟩) =
      .ok (items, Spot.stream ks.length ⟨ns', []⟩) := by
    show loopN scriptTurn (ks.length + 2) [] _ = _
    obtain ⟨m, hm⟩ : ∃ m, ks.length + 2 = m + 1 + j := ⟨ks.length + 1 - j, by omega⟩
    have hturns := h [] (m + 1) []
    rw [List.append_nil] at hturns
    rw [hm, hturns]
    rfl
  have hscript : script (Spot.stream ks.length ⟨ns, ks⟩) =
      .ok (⟨items, .nowhere⟩, Spot.stream ks.length ⟨ns', []⟩) := by
    rw [script_eq, bind_to span_stream, bind_to hloop]
    rfl
  rw [itemsOf, wholly, hscript]
  rfl

theorem length_separate (d : Declaration) : d.joined.length ≤ d.separate.length ∧
    d.pieces.length ≤ d.separate.length := by
  have hpositive : 1 ≤ d.type.next.tokens.length := by
    cases d.type <;> simp [Specifier.next, Specifier.tokens]
  have hrest : ∀ ds : List Declarator, (Declarator.list ds).length ≤
      (ds.flatMap fun e => joined ⟨d.type.next, e, []⟩).length ∧
        ds.length ≤ (ds.flatMap fun e => joined ⟨d.type.next, e, []⟩).length := by
    intro ds
    induction ds with
    | nil => simp [Declarator.list]
    | cons e ds ih =>
        simp only [Declarator.list, joined, List.flatMap_cons, List.flatMap_nil, List.length_append,
          List.length_cons, List.length_nil] at ih ⊢
        omega
  have hds := hrest d.rest
  rw [separate_eq]
  simp only [joined, pieces, Declarator.list, List.flatMap_nil, List.length_append, List.length_cons,
    List.length_nil, List.length_map] at hds ⊢
  omega

theorem itemsOf_joined {ns : List String} (hd : d.items? ns = some items) (heof : .eof ∉ d.joined) :
    itemsOf ns d.joined = some items := by
  obtain ⟨t, ns', _, _, _, _, ht, _⟩ := gather_eq_some hd
  exact itemsOf_turns (Nat.le_add_left 1 _) (taken_script hd ht heof (Nat.le_refl _)).joined

theorem itemsOf_separate {ns : List String} (hd : d.items? ns = some items) (heof : .eof ∉ d.joined) :
    itemsOf ns d.separate = some items := by
  obtain ⟨t, ns', _, _, _, _, ht, _⟩ := gather_eq_some hd
  obtain ⟨hlength, hpieces⟩ := d.length_separate
  obtain ⟨ns₂, _, hturns⟩ := (taken_script hd ht heof hlength).separate
  exact itemsOf_turns (Nat.le_succ_of_le hpieces) hturns

theorem item?_type {t : TypeSpec} {e : Declarator} {i : Item} (h : e.item? t = some i) :
    ∃ v : VarDecl, i = .var v ∧ v.type = t := by
  unfold Declarator.item? at h
  split at h
  · cases h
    exact ⟨_, rfl, rfl⟩
  · obtain ⟨r, _, rfl⟩ := Option.map_eq_some_iff.mp h
    exact ⟨_, rfl, rfl⟩

theorem mapM_item? {t : TypeSpec} (ds : List Declarator) : ∀ {is : List Item},
    ds.mapM (Declarator.item? t) = some is →
    is.length = ds.length ∧ ∀ i ∈ is, ∃ v : VarDecl, i = .var v ∧ v.type = t := by
  induction ds with
  | nil =>
      intro is his
      cases his
      exact ⟨rfl, fun i hi => by cases hi⟩
  | cons e ds ih =>
      intro is his
      obtain ⟨i, is', hi, his', rfl⟩ := mapM_cons_eq_some his
      obtain ⟨hlength, hall⟩ := ih his'
      refine ⟨congrArg (· + 1) hlength, fun j hj => ?_⟩
      rcases List.mem_cons.mp hj with rfl | hj
      · exact item?_type hi
      · exact hall j hj

/-- One variable for each declarator, and a struct body at most in the first one. -/
theorem items_each {ns : List String} (hd : d.items? ns = some items) :
    items.length = d.pieces.length ∧ ∀ i ∈ items.tail, ∃ v : VarDecl, i = .var v ∧ v.type.members = none := by
  obtain ⟨t, ns', t', ns'', i, is, _, ht', _, his, rfl⟩ := gather_eq_some hd
  obtain ⟨hlength, hall⟩ := mapM_item? d.rest his
  refine ⟨?_, fun j hj => ?_⟩
  · rw [List.length_cons, hlength, pieces, List.length_cons, List.length_map]
  · obtain ⟨v, rfl, hv⟩ := hall j hj
    exact ⟨v, rfl, hv ▸ Specifier.members_next ht'⟩

end Declaration

/--
**A list of declarators is the same as one declaration for each.** Let the tokens of two scripts be the same but
for one place where a declaration can begin, in the outermost scope, in a block or in a struct. There the first
script has a type with a list of declarators, and the second one a declaration for each of them, the first with
the type as it is written and the others with the name of the struct in the place of its body. By themselves
both texts are read as the same items, one for each declarator, and a struct body is in the first of them at most.
Up to places the scripts are parsed as the same tree, and analysis leaves the same tables for both.
-/
theorem Block.list_or_separate {source source' : String} {before after : List Token.Kind} {d : Declaration}
    {items : List Item} (hedge : Token.Kind.atEdge before = true)
    (hitems : d.items? (structNames [] before) = some items)
    (hjoined : Lexeme.kinds source = .ok (before ++ d.joined ++ after ++ [.eof]))
    (hseparate : Lexeme.kinds source' = .ok (before ++ d.separate ++ after ++ [.eof])) :
    (Declaration.itemsOf (structNames [] before) d.joined = some items ∧
        Declaration.itemsOf (structNames [] before) d.separate = some items ∧
        items.length = d.pieces.length ∧
        ∀ i ∈ items.tail, ∃ v : VarDecl, i = .var v ∧ v.type.members = none) ∧
      (Block.parse source).toOption.map Block.placeless = (Block.parse source').toOption.map Block.placeless ∧
      ∀ b b', Block.parse source = .ok b → Block.parse source' = .ok b' → ∀ s : Session,
        (b.analyse s).state = (b'.analyse s).state ∧
          (b.analyse s).placeless = (b'.analyse s).placeless := by
  have hparse := Declaration.parse_separate hedge hitems hjoined hseparate
  have heof : .eof ∉ d.joined := by
    intro h
    rw [List.append_assoc before] at hjoined
    exact (Block.parse_kinds hjoined).1 (List.mem_append_right _ (List.mem_append_left _ h))
  refine ⟨⟨Declaration.itemsOf_joined hitems heof, Declaration.itemsOf_separate hitems heof,
    Declaration.items_each hitems⟩, hparse, fun b b' hb hb' s => ?_⟩
  rw [hb, hb'] at hparse
  have hsame : b.placeless = b'.placeless := Option.some.inj hparse
  have hstrip : (b.analyse s).placeless = (b'.analyse s).placeless := by
    rw [← Block.analyse_placeless, ← Block.analyse_placeless, hsame]
  have hstate : (b.analyse s).placeless.state = (b'.analyse s).placeless.state :=
    congrArg Step.state hstrip
  exact ⟨hstate, hstrip⟩

/-- A struct with a struct inside, and three variables of it, one of which has an initializer. -/
def Declaration.nested : Declaration where
  type := .body "P" [.keyword .kwInt, .name "x", .symbol .semicolon, .keyword .kwStruct, .name "Q",
    .symbol .leftBrace, .keyword .kwInt, .name "y", .symbol .semicolon, .symbol .rightBrace, .name "q",
    .symbol .semicolon]
  first := ⟨"a", none⟩
  rest := [⟨"b", some [.name "h", .symbol .leftParen, .int "1", .symbol .comma, .name "a",
    .symbol .rightParen]⟩, ⟨"c", none⟩]

/-- The beginning of a function. -/
def Declaration.opening : List Token.Kind :=
  [.keyword .kwVoid, .name "f", .symbol .leftParen, .symbol .rightParen, .symbol .leftBrace]

/-- A function that begins with the declaration, as a list and as one declaration for each variable. -/
def Declaration.nestedTexts : String × String :=
  ("void f()\x7bstruct P\x7bint x;struct Q\x7bint y;\x7dq;\x7da,b=h(1,a),c;\x7d",
    "void f()\x7bstruct P\x7bint x;struct Q\x7bint y;\x7dq;\x7da;P b=h(1,a);P c;\x7d")

set_option maxRecDepth 100000 in
theorem Block.list_or_separate_nested :
    ∃ items, Declaration.nested.items? (structNames [] Declaration.opening) = some items ∧ items.length = 3 ∧
      Declaration.itemsOf [] Declaration.nested.separate = some items ∧
      (Block.parse Declaration.nestedTexts.1).isOk = true ∧
      (Block.parse Declaration.nestedTexts.1).toOption.map Block.placeless =
        (Block.parse Declaration.nestedTexts.2).toOption.map Block.placeless := by
  have hread : (Declaration.nested.items? (structNames [] Declaration.opening)).isSome = true := by
    decide +kernel
  obtain ⟨items, hitems⟩ := Option.isSome_iff_exists.mp hread
  have hjoined : (Lexeme.kinds Declaration.nestedTexts.1).toOption =
      some (Declaration.opening ++ Declaration.nested.joined ++ [.symbol .rightBrace] ++ [.eof]) := by
    decide +kernel
  have hseparate : (Lexeme.kinds Declaration.nestedTexts.2).toOption =
      some (Declaration.opening ++ Declaration.nested.separate ++ [.symbol .rightBrace] ++ [.eof]) := by
    decide +kernel
  have hok : (Block.parse Declaration.nestedTexts.1).isOk = true := by decide +kernel
  have hkinds : ∀ (source : String) (ks : List Token.Kind), (Lexeme.kinds source).toOption = some ks →
      Lexeme.kinds source = .ok ks := by
    intro source ks h
    cases hk : Lexeme.kinds source with
    | error bad => rw [hk] at h; cases h
    | ok ks' => rw [hk] at h; exact congrArg Except.ok (Option.some.inj h)
  have hedge : Token.Kind.atEdge Declaration.opening = true := rfl
  obtain ⟨⟨_, hseparated, hlength, _⟩, hparse, _⟩ := Block.list_or_separate hedge hitems
    (hkinds _ _ hjoined) (hkinds _ _ hseparate)
  exact ⟨items, hitems, hlength, hseparated, hok, hparse⟩

end Jaf
