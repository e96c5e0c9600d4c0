import Jaf.Proofs.Parser.SelfContainedTexts

/-!
# Texts that differ at one place

Two texts agree up to a place where a declaration can begin. There they part: one goes on with some
declarations and the other one with other tokens that declare the same, and behind them they agree again. This
file shows that the second text is read as the same script as the first one, if every loop that can stand at
this place gets across it in both texts with the same result.

Before the parting, the runs are in step (`Parting.Ahead`): they have the same tokens in front of them and
know the same structs. Where the last common token is a semicolon or a brace, the next step leads to the
parting itself (`Parting.Here`). Only three loops can go on from there: that of a script, that of a block and
that of a struct body. What is known about the last two is part of the `Parting`, and about the first one it is
assumed where scripts are read. Everything else that can be tried there fails, because it wants neither a type
nor the end of the file nor two names after each other. Behind the parting the runs are in step again
(`Spot.Same`), up to the order and the number of the struct names that they have seen.

A loop may take more turns to get across in the second text, so that the second run needs a larger bound. What
is over when the loop has come across is the difference of the bounds; this is why all statements are
about both, runs that may come to the parting and runs that do not.
-/

namespace Jaf

open Jaf.Parser

namespace Token.Kind

/-- Tokens behind which a declaration can begin. -/
def isEdge : Token.Kind → Bool
  | .symbol .semicolon | .symbol .leftBrace | .symbol .rightBrace => true
  | _ => false

/-- Tokens that can begin a type. -/
def opensType : Token.Kind → Bool
  | .name _ => true
  | k => k.isTypeKeyword

/-- Tokens that can begin a type, and the end of file. -/
def isBreak : Token.Kind → Bool
  | .eof => true
  | k => k.opensType

theorem isBreak_of_opensType {k : Token.Kind} (h : k.opensType = true) : k.isBreak = true := by
  cases k <;> first | rfl | exact h

end Token.Kind

/-- The struct names that are known after the given tokens: those that stand behind `struct`. -/
def structNames (names : List String) : List Token.Kind → List String
  | .keyword .kwStruct :: .name text :: ks => structNames (text :: names) ks
  | _ :: ks => structNames names ks
  | [] => names

theorem structNames_cons {names : List String} {k : Token.Kind} {ks : List Token.Kind}
    (h : k = .keyword .kwStruct → ∀ text ks', ks ≠ .name text :: ks') :
    structNames names (k :: ks) = structNames names ks := by
  rw [structNames]
  intro text ks' hk hks
  exact h hk text ks' hks

theorem structNames_append_edge {b : Token.Kind} (hb : b.isEdge = true) (names : List String)
    (ks : List Token.Kind) : structNames names (ks ++ [b]) = structNames names ks := by
  induction names, ks using structNames.induct with
  | case1 names text ks ih => exact ih
  | case2 names k ks hks ih =>
      rw [structNames_cons fun hk text ks' h => hks text ks' hk h, List.cons_append, structNames_cons, ih]
      intro hk text ks' h
      cases ks with
      | nil =>
          rw [List.nil_append] at h
          cases h
          cases hb
      | cons k' ks =>
          cases h
          exact hks text _ hk rfl
  | case3 names => exact structNames_cons fun _ _ _ h => by cases h

/-- Two lists of names in which the same names are known. -/
def SameNames (ns ns' : List String) : Prop := ∀ text, text ∈ ns ↔ text ∈ ns'

/-- The same tokens to come, and the same struct names known. -/
def Spot.Same (x y : Spot) : Prop := x.kinds = y.kinds ∧ SameNames x.names y.names

/--
Two loops get across: whatever the first one does from `x` on, it does from a later spot on, and the second one
gets in `extra` turns from `y` to a spot that is the same. If the texts do not agree again, the first loop fails.
-/
def Parser.Crosses {α : Type} (again : Prop) (n n' extra : Nat) (x y : Spot)
    (f g : List α → Parser Ribbon (Turn (List α) (List α))) : Prop :=
  ∀ acc m r, loopN f m acc (x.stream n) = .ok r → again ∧ ∃ (acc' : List α) (x' y' : Spot), x'.Same y' ∧
    x'.kinds.length ≤ x.kinds.length ∧ loopN f m acc' (x'.stream n) = .ok r ∧
    ∀ m', loopN g (m' + extra) acc (y.stream n') = loopN g m' acc' (y'.stream n')

theorem Parser.Crosses.of_fail {α : Type} {again : Prop} {n n' extra : Nat} {x y : Spot}
    {f g : List α → Parser Ribbon (Turn (List α) (List α))} (h : ∀ acc r, f acc (x.stream n) ≠ .ok r) :
    Crosses again n n' extra x y f g := by
  intro acc m r hr
  cases m with
  | zero => cases hr
  | succ m =>
      obtain ⟨t, s, hturn, _⟩ := bind_eq_ok hr
      exact absurd hturn (h acc _)

section Turns

variable {φ : Type} [Feed φ]

/-- One member declaration of a struct body that began at `start`, or the end of the body. -/
def Parser.bodyTurn (inner : Parser φ TypeSpec) (start : Span) (decls : List VarDecl) :
    Parser φ (Turn (List VarDecl) (List VarDecl)) := do
  match ← kind with
  | .symbol .rightBrace => return .done decls
  | .eof => failAt start .unterminatedStruct
  | _ => return .again (decls ++ (← members inner))

/-- One member of a member declaration that began at `start`. -/
def Parser.memberTurn (start : Span) (a : TypeSpec × List VarDecl) :
    Parser φ (Turn (TypeSpec × List VarDecl) (List VarDecl)) := do
  let field ← name
  let decls := a.2 ++ [.plain (some field) a.1 (start.merge (← previous))]
  if ← accept (.symbol .comma) then return .again (a.1.forNext, decls) else return .done decls

theorem Parser.members_eq (inner : Parser φ TypeSpec) : members inner = (do
    let start ← span
    let type ← inner
    if ← accept (.symbol .semicolon) then
      return [.plain none type (start.merge (← previous))]
    else
      let decls ← loop (memberTurn start) (type, [])
      expect (.symbol .semicolon)
      return decls) := rfl

/-- A struct after its keyword and its name, if it has one. -/
def Parser.structRest (inner : Parser φ TypeSpec) (start : Span) (tag : Option String) :
    Parser φ TypeSpec := do
  if ← accept (.symbol .leftBrace) then
    let decls ← loop (bodyTurn inner start) []
    expect (.symbol .rightBrace)
    return .body tag decls (start.merge (← previous))
  else
    match tag with
    | some text => return .named text (start.merge (← previous))
    | none => unexpected .structNameOrBody

theorem Parser.structTail_eq (inner : Parser φ TypeSpec) (start : Span) :
    structTail inner start = (do
      match ← name? with
      | some text =>
        addTypeName text
        structRest inner start (some text)
      | none => structRest inner start none) := by
  unfold structTail
  congr 1
  funext tag
  cases tag <;> rfl

/-- One declarator: its initializer, and the name of the next one. -/
def BlockParsers.declaratorTurn (start : Span) (a : String × TypeSpec × List Item) :
    Parser φ (Turn (String × TypeSpec × List Item) (List Item)) := do
  let init ← do if ← accept (.symbol .eq) then some <$> assignment else pure none
  let decl : VarDecl := ⟨some a.1, a.2.1, init, none, start.merge (← previous)⟩
  let items := a.2.2 ++ [.var decl]
  if ← accept (.symbol .comma) then
    return .again (← name, a.2.1.forNext, items)
  else
    return .done items

theorem BlockParsers.declarators_eq (start : Span) (type : TypeSpec) (first : String) :
    (declarators start type first : Parser φ (List Item)) =
      (do
        let items ← loop (declaratorTurn start) (first, type, [])
        expect (.symbol .semicolon)
        return items) := rfl

/-- One item of a block that began at `start`, or the end of the block. -/
def BlockParsers.blockTurn (inner : BlockParsers φ) (start : Span) (items : List Item) :
    Parser φ (Turn (List Item) (List Item)) := do
  match ← kind with
  | .symbol .rightBrace => return .done items
  | .eof => failAt start .unterminatedBlock
  | _ => return .again (items ++ (← inner.item))

theorem BlockParsers.block_eq (inner : BlockParsers φ) : block inner = (do
    let start ← span
    expect (.symbol .leftBrace)
    let items ← loop (blockTurn inner start) []
    expect (.symbol .rightBrace)
    return ⟨items, start.merge (← previous)⟩) := rfl

/-- One declaration of a script, or its end. -/
def Parser.scriptTurn (items : List Item) : Parser φ (Turn (List Item) (List Item)) := do
  if ← at? .eof then return .done items
  else if ← startsType then return .again (items ++ (← declaration))
  else unexpected .declaration

theorem Parser.script_eq : (script : Parser φ Block) = (do
    let start ← span
    let items ← loop scriptTurn []
    return ⟨items, start.merge (← previous)⟩) := rfl

end Turns

/-- A place where two texts part, with what gets the loops that can stand there across it. -/
structure Parting where
  n : Nat
  n' : Nat
  /-- What the bound of the second run is larger by. -/
  extra : Nat
  le : n + extra ≤ n'
  /-- Whether the texts agree again behind the parting. -/
  again : Prop
  /-- The struct names known at the parting. -/
  names : List String
  /-- How the first text goes on. -/
  left : List Token.Kind
  /-- How the second text goes on. -/
  right : List Token.Kind
  opens : (left.headD .eof).isBreak = true
  opens_right : (right.headD .eof).isBreak = true
  second : ∀ text, left.headD .eof = .name text → ∃ label, left.tail.headD .eof = .name label
  block : ∀ k k', k ≤ k' → Crosses again n n' extra ⟨names, left⟩ ⟨names, right⟩
    ((blockParsers k).blockTurn .nowhere) ((blockParsers k').blockTurn .nowhere)
  body : ∀ k k', left.length ≤ k → k ≤ k' → Crosses again n n' extra ⟨names, left⟩ ⟨names, right⟩
    (bodyTurn (typeSpecN k) .nowhere) (bodyTurn (typeSpecN k') .nowhere)

namespace Parting

variable {α β : Type} {P : Parting} {early : Bool} {l : Nat} {x y : Spot}

/-- The spot of the first run at the parting. -/
def spot (P : Parting) : Spot := ⟨P.names, P.left⟩

/-- The runs are before the parting. -/
def Ahead (P : Parting) (x y : Spot) : Prop :=
  ∃ ks b, b.isEdge = true ∧ .eof ∉ ks ∧ x.kinds = ks ++ b :: P.left ∧ y.kinds = ks ++ b :: P.right ∧
    x.names = y.names ∧ structNames x.names ks = P.names

/-- The runs are at the parting. -/
def Here (P : Parting) (x y : Spot) : Prop := x = P.spot ∧ y = ⟨P.names, P.right⟩

/-- The runs are in step, and are not yet at the parting, or behind it; a late run is behind it. -/
structure Near (P : Parting) (early : Bool) (l : Nat) (x y : Spot) : Prop where
  length : x.kinds.length ≤ l
  inStep : early = true ∧ P.Ahead x y ∨ P.again ∧ x.Same y

/-- The runs are in step, or at the parting. -/
def Reaches (P : Parting) (early : Bool) (l : Nat) (x y : Spot) : Prop :=
  P.Near early l x y ∨ early = true ∧ P.left.length ≤ l ∧ P.Here x y

/-- Where runs in step are after a token. -/
def Lands (P : Parting) (early : Bool) (l : Nat) (k : Token.Kind) : Spot → Spot → Prop :=
  match k.isEdge with
  | true => P.Reaches early l
  | false => P.Near early l

/-- The runs are in step behind a `struct`, whose name they do not know yet. -/
def Tagged (P : Parting) (early : Bool) (l : Nat) (x y : Spot) : Prop :=
  (∃ text, x.kind = .name text ∧ y.kind = .name text ∧
    P.Near early l (x.next.learn text) (y.next.learn text)) ∨
  (∀ text, x.kind ≠ .name text) ∧ P.Near early l x y

/-- Runs that are in step stay or come to the parting. -/
abbrev Comes (P : Parting) (early : Bool) (l : Nat) (p q : Parser Ribbon α) : Prop :=
  Echoes P.n P.n' (P.Near early l) (fun _ => P.Reaches early l) never p q

/-- Runs that are in step stay so. -/
abbrev Stays (P : Parting) (early : Bool) (l : Nat) (p q : Parser Ribbon α) : Prop :=
  Echoes P.n P.n' (P.Near early l) (fun _ => P.Near early l) never p q

/-- Runs in step have the same current token. -/
theorem Near.kind_eq (h : P.Near early l x y) : y.kind = x.kind := by
  rcases h.inStep with ⟨_, ks, b, _, _, hx, hy, _⟩ | ⟨_, hxy, _⟩
  · rw [Spot.kind, Spot.kind, hx, hy]
    cases ks <;> rfl
  · rw [Spot.kind, Spot.kind, hxy]

theorem Near.peek_eq (h : P.Near early l x y) (hedge : x.kind.isEdge = false) : y.peek = x.peek := by
  unfold Spot.peek Spot.next Spot.kind
  rcases h.inStep with ⟨_, ks, b, hb, _, hx, hy, _⟩ | ⟨_, hxy, _⟩
  · rw [Spot.kind, hx] at hedge
    rw [hx, hy]
    rcases ks with _ | ⟨k, _ | ⟨k', ks⟩⟩
    · exact absurd (hb.symm.trans hedge) (by simp)
    · rfl
    · rfl
  · rw [hxy]

theorem Near.contains_eq (h : P.Near early l x y) (text : String) :
    y.names.contains text = x.names.contains text := by
  rcases h.inStep with ⟨_, _, _, _, _, _, _, hnames, _⟩ | ⟨_, _, hnames⟩
  · rw [hnames]
  · rw [Bool.eq_iff_iff, List.contains_iff_mem, List.contains_iff_mem]
    exact (hnames text).symm

theorem Near.mono {l' : Nat} (h : P.Near early l x y) (hl : l ≤ l') : P.Near early l' x y :=
  ⟨Nat.le_trans h.length hl, h.inStep⟩

theorem Near.length_next (h : P.Near early l x y) : x.next.kinds.length ≤ l - 1 := by
  have hlength := h.length
  rw [Spot.next, List.length_tail]
  omega

theorem Near.of_any {k : Token.Kind} (h : P.Near early l x y) : P.Lands early l k x y := by
  unfold Lands
  cases k.isEdge with
  | true => exact .inl h
  | false => exact h

/-- **A step before the parting**, over a token that is not `struct`. -/
theorem Near.lands (h : P.Near early l x y) (hk : x.kind ≠ .keyword .kwStruct) :
    P.Lands early (l - 1) x.kind x.next y.next := by
  have hlength := h.length_next
  rcases h.inStep with ⟨hearly, ks, b, hb, heof, hx, hy, hnames, hP⟩ | ⟨hagain, hxy⟩
  · cases ks with
    | nil =>
        -- the edge is consumed, and what comes is the parting
        have hkind : x.kind = b := by rw [Spot.kind, hx]; rfl
        have hleft : x.next = P.spot := by rw [Spot.next, hx, show x.names = P.names from hP]; rfl
        have hright : y.next = ⟨P.names, P.right⟩ := by
          rw [Spot.next, hy, ← hnames, show x.names = P.names from hP]
          rfl
        rw [hleft] at hlength
        unfold Lands
        rw [hkind, hb]
        exact .inr ⟨hearly, hlength, hleft, hright⟩
    | cons k ks =>
        have hkind : x.kind = k := by rw [Spot.kind, hx]; rfl
        rw [structNames_cons fun h => absurd (hkind.trans h) hk] at hP
        have heof' : .eof ∉ ks := fun h => heof (List.mem_cons_of_mem k h)
        have hnext : P.Near early (l - 1) x.next y.next :=
          ⟨hlength, .inl ⟨hearly, ks, b, hb, heof', congrArg List.tail hx, congrArg List.tail hy, hnames, hP⟩⟩
        exact hnext.of_any
  · have hnext : P.Near early (l - 1) x.next y.next :=
      ⟨hlength, .inr ⟨hagain, congrArg List.tail hxy.1, hxy.2⟩⟩
    exact hnext.of_any

/-- A step over `struct`. -/
theorem Near.tagged (h : P.Near early l x y) (hk : x.kind = .keyword .kwStruct) :
    P.Tagged early (l - 1) x.next y.next := by
  have hlength := h.length_next
  have hlength' : x.next.next.kinds.length ≤ l - 1 := by
    rw [Spot.next, List.length_tail]
    omega
  rcases h.inStep with ⟨hearly, ks, b, hb, heof, hx, hy, hnames, hP⟩ | ⟨hagain, hxy⟩
  · cases ks with
    | nil =>
        rw [Spot.kind, hx] at hk
        cases hk
        cases hb
    | cons k ks =>
        have hkind : k = .keyword .kwStruct := by rw [Spot.kind, hx] at hk; exact hk
        have heof' : .eof ∉ ks := fun h => heof (List.mem_cons_of_mem k h)
        have hx' : x.next.kinds = ks ++ b :: P.left := congrArg List.tail hx
        have hy' : y.next.kinds = ks ++ b :: P.right := congrArg List.tail hy
        by_cases htext : ∃ text ks', ks = .name text :: ks'
        · obtain ⟨text, ks', rfl⟩ := htext
          rw [hkind] at hP
          refine .inl ⟨text, by rw [Spot.kind, hx']; rfl, by rw [Spot.kind, hy']; rfl, hlength', ?_⟩
          exact .inl ⟨hearly, ks', b, hb, fun h => heof' (List.mem_cons_of_mem _ h), congrArg List.tail hx',
            congrArg List.tail hy', congrArg (text :: ·) hnames, hP⟩
        · rw [structNames_cons fun _ text ks' h => htext ⟨text, ks', h⟩] at hP
          refine .inr ⟨fun text h => ?_, hlength, .inl ⟨hearly, ks, b, hb, heof', hx', hy', hnames, hP⟩⟩
          rw [Spot.kind, hx'] at h
          cases ks with
          | nil =>
              cases h
              cases hb
          | cons k' ks =>
              cases h
              exact htext ⟨text, ks, rfl⟩
  · have hnext : x.next.Same y.next := ⟨congrArg List.tail hxy.1, hxy.2⟩
    by_cases htext : ∃ text, x.next.kind = .name text
    · obtain ⟨text, htext⟩ := htext
      refine .inl ⟨text, htext, ?_, hlength', .inr ⟨hagain, congrArg List.tail hnext.1, fun name => ?_⟩⟩
      · rw [← htext, Spot.kind, Spot.kind, hnext.1]
      · have hname := hnext.2 name
        simp only [Spot.learn, Spot.next, List.mem_cons] at hname ⊢
        rw [hname]
    · exact .inr ⟨fun text h => htext ⟨text, h⟩, hlength, .inr ⟨hagain, hnext⟩⟩

/-! ## Steps of runs -/

section Steps

variable {post : β → Spot → Spot → Prop} {lost : β → Token.Kind → Prop} {k : Token.Kind}

/-- The runs are in step, with the given token in front. -/
structure At (P : Parting) (early : Bool) (l : Nat) (k : Token.Kind) (x y : Spot) : Prop where
  near : P.Near early l x y
  kind : x.kind = k

theorem Reaches.mono {l' : Nat} (h : P.Reaches early l x y) (hl : l ≤ l') : P.Reaches early l' x y :=
  h.imp (fun h => h.mono hl) fun h => ⟨h.1, Nat.le_trans h.2.1 hl, h.2.2⟩

theorem Lands.mono {l' : Nat} (h : P.Lands early l k x y) (hl : l ≤ l') : P.Lands early l' k x y := by
  unfold Lands at h ⊢
  cases hk : k.isEdge with
  | false =>
      rw [hk] at h
      exact Near.mono h hl
  | true =>
      rw [hk] at h
      exact Reaches.mono h hl

theorem At.lands (h : P.At early l k x y) (hk : k ≠ .keyword .kwStruct) :
    P.Lands early l k x.next y.next := by
  have hnext := h.near.lands (h.kind ▸ hk)
  rw [h.kind] at hnext
  exact hnext.mono (Nat.sub_le l 1)

theorem kind_bind {f g : Token.Kind → Parser Ribbon β}
    (h : ∀ k, Echoes P.n P.n' (P.At early l k) post lost (f k) (g k)) :
    Echoes P.n P.n' (P.Near early l) post lost (kind >>= f) (kind >>= g) := by
  intro x y hxy b s hs
  have hg : (kind >>= g) (y.stream P.n') = g x.kind (y.stream P.n') := by rw [← hxy.kind_eq]; rfl
  rw [hg]
  exact h x.kind x y ⟨hxy, rfl⟩ b s hs

theorem advance_bind {f g : Unit → Parser Ribbon β} (hk : k ≠ .keyword .kwStruct)
    (h : Echoes P.n P.n' (P.Lands early l k) post lost (f ()) (g ())) :
    Echoes P.n P.n' (P.At early l k) post lost (advance >>= f) (advance >>= g) :=
  fun x y hxy => h x.next y.next (hxy.lands hk)

theorem advance_struct {f g : Unit → Parser Ribbon β}
    (h : Echoes P.n P.n' (P.Tagged early (l - 1)) post lost (f ()) (g ())) :
    Echoes P.n P.n' (P.At early l (.keyword .kwStruct)) post lost (advance >>= f) (advance >>= g) :=
  fun x y hxy => h x.next y.next (hxy.near.tagged hxy.kind)

theorem lookahead_bind {f g : Token.Kind → Parser Ribbon β} (hk : k.isEdge = false)
    (h : ∀ k', Echoes P.n P.n' (fun x y => P.At early l k x y ∧ x.peek = k') post lost (f k') (g k')) :
    Echoes P.n P.n' (P.At early l k) post lost (lookahead >>= f) (lookahead >>= g) := by
  intro x y hxy b s hs
  have hg : (lookahead >>= g) (y.stream P.n') = g x.peek (y.stream P.n') := by
    rw [← hxy.near.peek_eq (hxy.kind ▸ hk)]
    rfl
  rw [hg]
  exact h x.peek x y ⟨hxy, rfl⟩ b s hs

theorem accept_bind {f g : Bool → Parser Ribbon β} (hk : k ≠ .keyword .kwStruct)
    (htrue : Echoes P.n P.n' (P.Lands early l k) post lost (f true) (g true))
    (hfalse : Echoes P.n P.n' (P.Near early l) post lost (f false) (g false)) :
    Echoes P.n P.n' (P.Near early l) post lost (accept k >>= f) (accept k >>= g) := by
  intro x y hxy b s hs
  have hx := accept_stream (n := P.n) (x := x) k
  have hy := accept_stream (n := P.n') (x := y) k
  rw [hxy.kind_eq] at hy
  by_cases h : x.kind = k
  · rw [if_pos h] at hx hy
    rw [bind_to hx] at hs
    rw [bind_to hy]
    exact htrue _ _ (At.lands ⟨hxy, h⟩ hk) b s hs
  · rw [if_neg h] at hx hy
    rw [bind_to hx] at hs
    rw [bind_to hy]
    exact hfalse _ _ hxy b s hs

theorem at_bind {f g : Bool → Parser Ribbon β}
    (h : ∀ b, Echoes P.n P.n' (P.Near early l) post lost (f b) (g b)) :
    Echoes P.n P.n' (P.Near early l) post lost (at? k >>= f) (at? k >>= g) := by
  intro x y hxy b s hs
  have hg : (at? k >>= g) (y.stream P.n') = g (decide (x.kind = k)) (y.stream P.n') := by
    rw [← hxy.kind_eq]
    rfl
  rw [hg]
  exact h _ x y hxy b s hs

theorem expect_bind {f g : Unit → Parser Ribbon β} (hk : k ≠ .keyword .kwStruct)
    (h : Echoes P.n P.n' (P.Lands early l k) post lost (f ()) (g ())) :
    Echoes P.n P.n' (P.Near early l) post lost (expect k >>= f) (expect k >>= g) := by
  intro x y hxy b s hs
  obtain ⟨u, t, hexpect, hs⟩ := bind_eq_ok hs
  obtain ⟨hx, rfl⟩ := of_expect_stream hexpect
  rw [bind_to (expect_stream (hxy.kind_eq.trans hx))]
  exact h _ _ (At.lands ⟨hxy, hx⟩ hk) b s hs

theorem name?_bind {f g : Option String → Parser Ribbon β}
    (h : ∀ tag, Echoes P.n P.n' (P.Near early l) post lost (f tag) (g tag)) :
    Echoes P.n P.n' (P.Near early l) post lost (name? >>= f) (name? >>= g) := by
  intro x y hxy b s hs
  by_cases htext : ∃ text, x.kind = .name text
  · obtain ⟨text, hx⟩ := htext
    rw [bind_to (name?_stream hx)] at hs
    rw [bind_to (name?_stream (hxy.kind_eq.trans hx))]
    exact h (some text) _ _ (At.lands ⟨hxy, hx⟩ fun h => by cases h) b s hs
  · have hx : ∀ text, x.kind ≠ .name text := fun text ht => htext ⟨text, ht⟩
    rw [bind_to (name?_stream_none hx)] at hs
    rw [bind_to (name?_stream_none fun text ht => hx text (hxy.kind_eq.symm.trans ht))]
    exact h none _ _ hxy b s hs

theorem name_bind {f g : String → Parser Ribbon β}
    (h : ∀ text, Echoes P.n P.n' (P.Near early l) post lost (f text) (g text)) :
    Echoes P.n P.n' (P.Near early l) post lost (name >>= f) (name >>= g) := by
  intro x y hxy b s hs
  obtain ⟨text, t, hname, hs⟩ := bind_eq_ok hs
  obtain ⟨hx, rfl⟩ := of_name_stream hname
  rw [bind_to (name_stream (hxy.kind_eq.trans hx))]
  exact h text _ _ (At.lands ⟨hxy, hx⟩ fun h => by cases h) b s hs

theorem isTypeName_bind {text : String} {f g : Bool → Parser Ribbon β}
    (h : ∀ b, Echoes P.n P.n' (P.At early l k) post lost (f b) (g b)) :
    Echoes P.n P.n' (P.At early l k) post lost (isTypeName text >>= f) (isTypeName text >>= g) := by
  intro x y hxy b s hs
  have hg : (isTypeName text >>= g) (y.stream P.n') = g (x.names.contains text) (y.stream P.n') := by
    rw [← hxy.near.contains_eq]
    rfl
  rw [hg]
  exact h _ x y hxy b s hs

theorem startsType_bind {f g : Bool → Parser Ribbon β}
    (h : ∀ b, Echoes P.n P.n' (P.Near early l) post lost (f b) (g b)) :
    Echoes P.n P.n' (P.Near early l) post lost (startsType >>= f) (startsType >>= g) := by
  have hstarts : P.Stays early l startsType startsType := by
    refine kind_bind fun k => ?_
    cases k with
    | name text =>
        refine (isTypeName_bind (f := pure) (g := pure) echoes_return).strengthen (fun _ _ _ h => ?_)
          fun _ _ h => h
        exact h.near
    | _ => exact echoes_pure fun _ _ h => h.near
  exact hstarts.bind h

end Steps

/-! ## At the parting -/

/-- A run that is lost has ended before the beginning of a type, or at the end of file. -/
def beforeBreak (_ : α) (k : Token.Kind) : Prop := k.isBreak = true

section Here

variable {post : β → Spot → Spot → Prop} {lost : β → Token.Kind → Prop} {k : Token.Kind}

theorem ne_of_isBreak {k k' : Token.Kind} (h : k.isBreak = true) (h' : k'.isBreak = false) : k ≠ k' := by
  rintro rfl
  rw [h] at h'
  cases h'

/-- What fails at the parting need only be looked at where the runs are in step. -/
theorem reaches_fail {p q : Parser Ribbon β} (h : Echoes P.n P.n' (P.Near early l) post lost p q)
    (hfail : ∀ b s, p (P.spot.stream P.n) ≠ .ok (b, s)) :
    Echoes P.n P.n' (P.Reaches early l) post lost p q := by
  rintro x y (hxy | ⟨_, _, rfl, rfl⟩) b s hs
  · exact h x y hxy b s hs
  · exact absurd hs (hfail b s)

theorem spot_break : P.spot.kind.isBreak = true := P.opens

theorem reaches_return {b : β} :
    Echoes P.n P.n' (P.Near early l) (fun _ => P.Reaches early l) lost (pure b) (pure b) :=
  echoes_pure fun _ _ h => .inl h

theorem expect_reaches {f g : Unit → Parser Ribbon β} (hk : k.isBreak = false)
    (h : Echoes P.n P.n' (P.Lands early l k) post lost (f ()) (g ())) :
    Echoes P.n P.n' (P.Reaches early l) post lost (expect k >>= f) (expect k >>= g) := by
  refine reaches_fail (expect_bind (fun h => by rw [h] at hk; cases hk) h) fun b s hs => ?_
  obtain ⟨_, _, hexpect, _⟩ := bind_eq_ok hs
  exact ne_of_isBreak P.opens hk (of_expect_stream hexpect).1

theorem accept_spot {x : Spot} {f : Bool → Parser Ribbon β} (hx : x.kind.isBreak = true)
    (hk : k.isBreak = false) : (accept k >>= f) (x.stream P.n) = f false (x.stream P.n) := by
  refine bind_to ?_
  rw [accept_stream, if_neg (ne_of_isBreak hx hk)]

theorem accept_reaches {f g : Bool → Parser Ribbon β} (hk : k.isBreak = false)
    (htrue : Echoes P.n P.n' (P.Lands early l k) post lost (f true) (g true))
    (hfalse : Echoes P.n P.n' (P.Reaches early l) post lost (f false) (g false)) :
    Echoes P.n P.n' (P.Reaches early l) post lost (accept k >>= f) (accept k >>= g) := by
  have hstruct : k ≠ .keyword .kwStruct := fun h => by rw [h] at hk; cases hk
  rintro x y (hxy | h) b s hs
  · exact accept_bind hstruct htrue (hfalse.weaken fun _ _ => .inl) x y hxy b s hs
  · have hy : y.kind.isBreak = true := by
      rw [h.2.2.2]
      exact P.opens_right
    have hg : (accept k >>= g) (y.stream P.n') = g false (y.stream P.n') := by
      refine bind_to ?_
      rw [accept_stream, if_neg (ne_of_isBreak hy hk)]
    have hx : x.kind.isBreak = true := by
      rw [h.2.2.1]
      exact P.opens
    rw [accept_spot hx hk] at hs
    rw [hg]
    exact hfalse x y (.inr h) b s hs

/-- A name at the parting is followed by a name. -/
theorem name_spot {text : String} {s : Stream Ribbon} (h : name (P.spot.stream P.n) = .ok (text, s)) :
    s = P.spot.next.stream P.n ∧ P.spot.next.kind.isBreak = true := by
  obtain ⟨hx, rfl⟩ := of_name_stream h
  obtain ⟨label, hlabel⟩ := P.second text hx
  refine ⟨rfl, ?_⟩
  rw [show P.spot.next.kind = .name label from hlabel]
  rfl

/-- A name with another name behind it is read as an expression by itself. -/
theorem expression_name (n : Nat) (names : List String) (text label : String) (ks : List Token.Kind) :
    ∃ e, expression (Spot.stream n ⟨names, .name text :: .name label :: ks⟩) =
      .ok (e, Spot.stream n ⟨names, .name label :: ks⟩) := by
  have halone : expression (Spot.stream 0 ⟨names, [.name text]⟩) =
      .ok (.ident (.ofSpan .nowhere) text none, Spot.stream 0 ⟨names, []⟩) := rfl
  have hstop : (([Token.Kind.name label] ++ ks).headD .eof).isStop = true := rfl
  obtain ⟨x, hx, ⟨y, hy, hxy⟩ | ⟨_, hl⟩⟩ := Echo.echoes_expression
    (R := Beside.echo names names (Nat.zero_le n) hstop) _ _ ⟨[.name text], by simp, rfl, rfl⟩ _ _ halone
  · rcases hxy.step with ⟨_, hne, _⟩ | ⟨_, rfl⟩
    · exact absurd (congrArg (·.current.kind) hx).symm hne
    · exact ⟨_, hy⟩
  · cases hl

theorem expression_keyword {n : Nat} {names : List String} {word : Keyword} {ks : List Token.Kind} {e : Expr}
    {s : Stream Ribbon} :
    expression (Spot.stream n ⟨names, .keyword word :: ks⟩) ≠ .ok (e, s) := by
  intro hs
  cases word <;> cases hs

/-- An expression at the parting is one name, and another one follows. -/
theorem strays_expression : Strays P.n beforeBreak expression P.spot := by
  intro e s hs
  have hopens := P.opens
  have hsecond := P.second
  unfold spot at hs
  generalize P.left = left at hopens hsecond hs
  cases left with
  | nil => cases hs
  | cons k ks =>
      cases k with
      | eof => cases hs
      | name text =>
          obtain ⟨label, hlabel⟩ := hsecond text rfl
          cases ks with
          | nil => cases hlabel
          | cons k ks =>
              obtain rfl : k = .name label := hlabel
              obtain ⟨e', he⟩ := expression_name P.n P.names text label ks
              obtain ⟨rfl, rfl⟩ := Except.ok.inj (he.symm.trans hs)
              exact ⟨_, rfl, rfl⟩
      | keyword word => exact absurd hs expression_keyword
      | _ => cases hopens

end Here

/-! ## Loops across the parting -/

section Loops

variable {f g : List α → Parser Ribbon (Turn (List α) (List α))}

/--
A loop that can stand at the parting. Before it has come across, the second loop has `extra` turns in hand;
from then on both go on behind the parting.
-/
theorem echoes_across
    (hturn : ∀ early acc, Echoes P.n P.n' (P.Near early l)
      (afterTurn (P.Reaches early l) fun _ => P.Near early l) (lostTurn never) (f acc) (g acc))
    (hcross : P.left.length ≤ l → Crosses P.again P.n P.n' P.extra P.spot ⟨P.names, P.right⟩ f g) (acc : List α) :
    Echoes P.n P.n' (P.Reaches early l) (fun _ => P.Near early l) never (loop f acc) (loop g acc) := by
  have hle := P.le
  have hlate : ∀ (m m' : Nat) (acc : List α), m ≤ m' →
      Echoes P.n P.n' (P.Near false l) (fun _ => P.Near early l) never (loopN f m acc) (loopN g m' acc) := by
    intro m m' acc hm
    refine echoes_loopN (fun acc => (hturn false acc).strengthen (fun t x y h => ?_) fun _ _ h => h) m hm acc
    cases t with
    | again acc => exact h.resolve_right fun h => by cases h.1
    | done items => exact ⟨h.length, .inr (h.inStep.resolve_left fun h => by cases h.1)⟩
  have hearly : ∀ (m m' : Nat) (acc : List α), m + P.extra ≤ m' →
      Echoes P.n P.n' (P.Reaches early l) (fun _ => P.Near early l) never (loopN f m acc)
        (loopN g m' acc) := by
    intro m
    induction m with
    | zero => intro m' acc _; exact echoes_giveUp
    | succ m ih =>
        rintro m' acc hm x y (hxy | ⟨_, hl, rfl, rfl⟩) items s hs
        · obtain ⟨m', rfl⟩ : ∃ j, m' = j + 1 := ⟨m' - 1, by omega⟩
          have hrun : Echoes P.n P.n' (P.Near early l) (fun _ => P.Near early l) never (loopN f (m + 1) acc)
              (loopN g (m' + 1) acc) := by
            refine (hturn early acc).bind_lost (fun t => ?_) fun t x hl => ?_
            · cases t with
              | again acc' => exact ih m' acc' (by omega)
              | done items => exact echoes_pure fun _ _ h => h
            · cases t <;> exact hl.elim
          exact hrun x y hxy items s hs
        · obtain ⟨hagain, acc', x', y', hsame, hlength, hleft, hright⟩ := hcross hl acc (m + 1) (items, s) hs
          obtain ⟨j, rfl⟩ : ∃ j, m' = j + P.extra := ⟨m' - P.extra, by omega⟩
          rw [hright j]
          exact hlate (m + 1) j acc' (by omega) x' y' ⟨Nat.le_trans hlength hl, .inr ⟨hagain, hsame⟩⟩ items s hleft
  exact hearly (P.n + 2) (P.n' + 2) acc (by omega)

/-- A loop that stays before the parting, or behind it. -/
theorem echoes_along {γ : Type} {f g : γ → Parser Ribbon (Turn γ β)} {post : β → Spot → Spot → Prop}
    {lost : β → Token.Kind → Prop}
    (hturn : ∀ a, Echoes P.n P.n' (P.Near early l) (afterTurn (P.Near early l) post) (lostTurn lost) (f a)
      (g a))
    (a : γ) : Echoes P.n P.n' (P.Near early l) post lost (loop f a) (loop g a) :=
  echoes_loop (by have := P.le; omega) hturn a

end Loops

/-! ## Expressions -/

/-- Expressions do not come to the parting. -/
def echo (P : Parting) (early : Bool) (l : Nat) : Echo where
  n := P.n
  n' := P.n'
  le := by have := P.le; omega
  Rel := P.Near early l
  soft := False
  step {x y} h := by
    cases hedge : x.kind.isEdge with
    | true =>
        have hbar : x.kind.isBar = true := by
          generalize x.kind = k at hedge
          unfold Token.Kind.isEdge at hedge
          split at hedge <;> first | rfl | cases hedge
        refine .inr ⟨hbar, ?_, fun hy => ?_⟩
        · rw [h.kind_eq]
          exact Token.Kind.isStop_of_isBar hbar
        · rw [← h.kind_eq, hy] at hbar
          cases hbar
    | false =>
        refine .inl ⟨h.kind_eq.symm, fun hplain => ?_, by rw [h.peek_eq hedge]⟩
        have hstruct : x.kind ≠ .keyword .kwStruct := fun hk => by rw [hk] at hplain; cases hplain
        have hnext := (h.lands hstruct).mono (Nat.sub_le l 1)
        unfold Lands at hnext
        rw [hedge] at hnext
        exact hnext

theorem echoes_expression : P.Stays early l expression expression :=
  (Echo.echoes_expression (R := P.echo early l)).strengthen (fun _ _ _ h => h) fun _ _ h => h.2

theorem echoes_assignment : P.Stays early l assignment assignment :=
  Echo.echoes_assignment (R := P.echo early l)

theorem echoes_conditional : P.Stays early l conditional conditional :=
  Echo.echoes_conditional (R := P.echo early l)

end Parting

end Jaf
