import Jaf.Proofs.Parser.DifferingScripts

/-!
# Declarations of several variables

A declaration of variables is a type and a list of declarators, each a name with or without an initializer.
This file has such declarations as they are written, `Declaration`, and says what they declare:
`Declaration.items?` reads the type and each initializer by itself, and puts them together. The first variable
has the type as it is written. The others have the type that stands for it from then on, which is the name of
the struct if the type has a body, so that a body is there once.

The same variables can be declared one by one (`Declaration.pieces`). Whatever comes behind it, the list is read
as its items (`Declaration.reads_joined`), and the pieces are read as the same items one after the other
(`Declaration.reads_pieces`). Both are shown of every parser that reads a type and then a list of declarators,
since the members of a struct are read by one as well. That the pieces can be read at all rests on the names of
structs: the name of a struct is known from where it is first written, and stays so.
-/

namespace Jaf

open Jaf.Parser

/-- The words for types that are not structs. -/
def Keyword.isWord : Keyword → Bool
  | .kwVoid | .kwInt | .kwFloat | .kwString => true
  | _ => false

/-- A type as it is written in front of declarators. -/
inductive Specifier where
  | word (k : Keyword) (h : k.isWord = true)
  | known (name : String)
  | struct (name : String)
  | body (name : String) (members : List Token.Kind)

namespace Specifier

/-- The tokens of the type. -/
def tokens : Specifier → List Token.Kind
  | word k _ => [.keyword k]
  | known name => [.name name]
  | struct name => [.keyword .kwStruct, .name name]
  | body name ks =>
    [.keyword .kwStruct, .name name, .symbol .leftBrace] ++ ks ++ [.symbol .rightBrace]

/-- The type for more variables of the same type: a body is not written again. -/
def next : Specifier → Specifier
  | body name _ => known name
  | t => t

/-- What the type is read as where the given names are those of structs, and the names known then. -/
def read? (names : List String) (t : Specifier) : Option (TypeSpec × List String) :=
  typeSpec.wholly names t.tokens

end Specifier

/-- A declarator as it is written: a name, and the tokens of the initializer if there is one. -/
structure Declarator where
  name : String
  init : Option (List Token.Kind)

namespace Declarator

/-- What follows the name. -/
def tail (d : Declarator) : List Token.Kind :=
  match d.init with
  | none => []
  | some ks => .symbol .eq :: ks

/-- The tokens of the declarator. -/
def tokens (d : Declarator) : List Token.Kind := .name d.name :: d.tail

/-- The variable that is declared, if the initializer is an expression. -/
def item? (t : TypeSpec) (d : Declarator) : Option Item :=
  match d.init with
  | none => some (.var (.plain (some d.name) t .nowhere))
  | some ks => (assignment.wholly [] ks).map fun r => .var ⟨some d.name, t, some r.1, none, .nowhere⟩

/-- The declarators after the first one, each behind a comma. -/
def list (ds : List Declarator) : List Token.Kind := ds.flatMap fun d => .symbol .comma :: d.tokens

end Declarator

/-- A declaration of variables as it is written. -/
structure Declaration where
  type : Specifier
  first : Declarator
  rest : List Declarator

namespace Declaration

/-- The tokens of the declaration. -/
def joined (d : Declaration) : List Token.Kind :=
  d.type.tokens ++ (d.first.tokens ++ (Declarator.list d.rest ++ [.symbol .semicolon]))

/-- The same variables, each declared by itself. -/
def pieces (d : Declaration) : List Declaration :=
  ⟨d.type, d.first, []⟩ :: d.rest.map (⟨d.type.next, ·, []⟩)

/-- The tokens of declarations one after the other. -/
def separate (d : Declaration) : List Token.Kind := d.pieces.flatMap joined

/-- What the declaration declares, by what a declarator of a given type does. -/
def gather {α : Type} (item : TypeSpec → Declarator → Option α) (names : List String) (d : Declaration) :
    Option (List α) := do
  let (t, names') ← d.type.read? names
  let (t', _) ← d.type.next.read? names'
  return (← item t d.first) :: (← d.rest.mapM (item t'))

/-- The variables that are declared where the given names are those of structs. -/
def items? (names : List String) (d : Declaration) : Option (List Item) := d.gather Declarator.item? names

end Declaration

/-! ## Reading declarators -/

section Declarators

variable {n : Nat} {ns ns' : List String} {after : List Token.Kind}

theorem mapM_cons_eq_some {α β : Type} {f : α → Option β} {a : α} {as : List α} {bs : List β}
    (h : (a :: as).mapM f = some bs) : ∃ b bs', f a = some b ∧ as.mapM f = some bs' ∧ bs = b :: bs' := by
  rw [List.mapM_cons] at h
  obtain ⟨b, hb, h⟩ := Option.bind_eq_some_iff.mp h
  obtain ⟨bs', hbs, h⟩ := Option.bind_eq_some_iff.mp h
  exact ⟨b, bs', hb, hbs, (Option.some.inj h).symm⟩

theorem TypeSpec.forNext_forNext (t : TypeSpec) : t.forNext.forNext = t.forNext := by
  obtain ⟨kind, name, number, members, span⟩ := t
  cases members <;> cases name <;> rfl

/-- A declarator up to what comes behind its initializer. -/
theorem init_declarator {d : Declarator} {t : TypeSpec} {i : Item} (ns : List String)
    (tail : List Token.Kind) (hi : d.item? t = some i) (heof : .eof ∉ d.tail)
    (hn : d.tail.length ≤ n) (htail : (tail.headD .eof).isStop = true) :
    ∃ init, i = .var ⟨some d.name, t, init, none, .nowhere⟩ ∧
      ∀ {β : Type} (f : Option Expr → Parser Ribbon β),
        (accept (.symbol .eq) >>= fun b => if b = true then some <$> assignment >>= f else pure none >>= f)
          (Spot.stream n ⟨ns, d.tail ++ tail⟩) = f init (Spot.stream n ⟨ns, tail⟩) := by
  unfold Declarator.item? at hi
  unfold Declarator.tail at heof hn ⊢
  cases hinit : d.init with
  | none =>
      rw [hinit] at hi
      cases hi
      refine ⟨none, rfl, fun f => ?_⟩
      have hne : tail.headD .eof ≠ .symbol .eq := fun h => by rw [h] at htail; cases htail
      have haccept : accept (.symbol .eq) (Spot.stream n ⟨ns, tail⟩) =
          .ok (false, Spot.stream n ⟨ns, tail⟩) := by
        rw [accept_stream]
        exact if_neg hne
      exact bind_to haccept
  | some ks =>
      rw [hinit] at hi heof hn
      obtain ⟨⟨e, names⟩, he, rfl⟩ := Option.map_eq_some_iff.mp hi
      refine ⟨some e, rfl, fun f => ?_⟩
      have haccept : accept (.symbol .eq) (Spot.stream n ⟨ns, (.symbol .eq :: ks) ++ tail⟩) =
          .ok (true, Spot.stream n ⟨ns, ks ++ tail⟩) := by
        rw [accept_stream]
        exact if_pos rfl
      have hassign : assignment (Spot.stream n ⟨ns, ks ++ tail⟩) = .ok (e, Spot.stream n ⟨ns, tail⟩) := by
        refine assignment_wholly he (fun h => heof (List.mem_cons_of_mem _ h)) ?_ htail ns
        simp only [List.length_cons] at hn
        omega
      refine (bind_to haccept).trans (bind_to ?_)
      rw [map_eq_pure_bind, bind_to hassign]
      rfl

theorem turn_last {d : Declarator} {t : TypeSpec} {i : Item} (acc : List Item)
    (hi : d.item? t = some i) (heof : .eof ∉ d.tail) (hn : d.tail.length ≤ n) :
    BlockParsers.declaratorTurn .nowhere (d.name, t, acc)
        (Spot.stream n ⟨ns, d.tail ++ .symbol .semicolon :: after⟩) =
      .ok (.done (acc ++ [i]), Spot.stream n ⟨ns, .symbol .semicolon :: after⟩) := by
  obtain ⟨init, rfl, hinit⟩ := init_declarator ns (.symbol .semicolon :: after) hi heof hn rfl
  exact (hinit _).trans rfl

theorem turn_more {d d' : Declarator} {t : TypeSpec} {i : Item} (acc : List Item)
    (hi : d.item? t = some i) (heof : .eof ∉ d.tail) (hn : d.tail.length ≤ n) :
    BlockParsers.declaratorTurn .nowhere (d.name, t, acc)
        (Spot.stream n ⟨ns, d.tail ++ .symbol .comma :: .name d'.name :: after⟩) =
      .ok (.again (d'.name, t.forNext, acc ++ [i]), Spot.stream n ⟨ns, after⟩) := by
  obtain ⟨init, rfl, hinit⟩ := init_declarator ns (.symbol .comma :: .name d'.name :: after) hi heof hn
    rfl
  exact (hinit _).trans rfl

/-- A list of declarators up to the semicolon. -/
theorem turns_list (ds : List Declarator) : ∀ {d : Declarator} {t : TypeSpec} {i : Item} {is : List Item}
    {m : Nat} (acc : List Item), ds.length < m → d.item? t = some i →
    ds.mapM (Declarator.item? t.forNext) = some is → .eof ∉ d.tail ++ Declarator.list ds →
    (d.tail ++ Declarator.list ds).length ≤ n →
    loopN (BlockParsers.declaratorTurn .nowhere) m (d.name, t, acc)
        (Spot.stream n ⟨ns, d.tail ++ (Declarator.list ds ++ .symbol .semicolon :: after)⟩) =
      .ok (acc ++ i :: is, Spot.stream n ⟨ns, .symbol .semicolon :: after⟩) := by
  induction ds with
  | nil =>
      intro d t i is m acc hm hi his heof hn
      obtain ⟨m, rfl⟩ : ∃ j, m = j + 1 := ⟨m - 1, by omega⟩
      cases his
      have heof' : .eof ∉ d.tail := fun h => heof (List.mem_append_left _ h)
      have hn' : d.tail.length ≤ n := by
        rw [List.length_append] at hn
        omega
      exact bind_to (turn_last acc hi heof' hn')
  | cons d' ds ih =>
      intro d t i is m acc hm hi his heof hn
      obtain ⟨m, rfl⟩ : ∃ j, m = j + 1 := ⟨m - 1, by omega⟩
      obtain ⟨i', is', hi', his', rfl⟩ := mapM_cons_eq_some his
      have hlist : Declarator.list (d' :: ds) =
          .symbol .comma :: .name d'.name :: (d'.tail ++ Declarator.list ds) := rfl
      have hkinds : d.tail ++ (Declarator.list (d' :: ds) ++ .symbol .semicolon :: after) =
          d.tail ++ .symbol .comma :: .name d'.name ::
            (d'.tail ++ (Declarator.list ds ++ .symbol .semicolon :: after)) := by
        rw [hlist, List.cons_append, List.cons_append, List.append_assoc]
      rw [hlist] at heof hn
      rw [hkinds]
      have heof' : .eof ∉ d.tail := fun h => heof (List.mem_append_left _ h)
      have hrest : .eof ∉ d'.tail ++ Declarator.list ds := fun h =>
        heof (List.mem_append_right _ (List.mem_cons_of_mem _ (List.mem_cons_of_mem _ h)))
      simp only [List.length_append, List.length_cons] at hn hm
      have hnext : ds.mapM (Declarator.item? t.forNext.forNext) = some is' := by
        rw [TypeSpec.forNext_forNext]
        exact his'
      have hn' : (d'.tail ++ Declarator.list ds).length ≤ n := by
        rw [List.length_append]
        omega
      refine (bind_to (turn_more acc hi heof' (by omega))).trans ?_
      refine (ih (acc ++ [i]) (by omega) hi' hnext hrest hn').trans ?_
      rw [List.append_assoc]
      rfl

theorem Declarator.tail_head (d : Declarator) (ds : List Declarator) :
    (d.tail ++ (Declarator.list ds ++ .symbol .semicolon :: after)).headD .eof ≠ .symbol .leftParen := by
  obtain ⟨name, init⟩ := d
  cases init with
  | some ks => intro h; cases h
  | none => cases ds <;> (intro h; cases h)

theorem Declaration.length_rest (d : Declaration) : d.rest.length ≤ d.joined.length := by
  have hlist : d.rest.length ≤ (Declarator.list d.rest).length := by
    induction d.rest with
    | nil => exact Nat.le_refl 0
    | cons e ds ih =>
        simp only [Declarator.list, List.flatMap_cons, List.length_append, List.length_cons] at ih ⊢
        omega
  simp only [joined, List.length_append]
  omega

/-- **A list of declarators is read as one variable after the other.** -/
theorem declaration_list {d : Declaration} {t : TypeSpec} {i : Item} {is : List Item}
    (inner : BlockParsers Ribbon)
    (ht : ∀ rest, typeSpec (Spot.stream n ⟨ns, d.type.tokens ++ .name d.first.name :: rest⟩) =
      .ok (t, Spot.stream n ⟨ns', .name d.first.name :: rest⟩))
    (hi : d.first.item? t = some i) (his : d.rest.mapM (Declarator.item? t.forNext) = some is)
    (heof : .eof ∉ d.joined) (hn : d.joined.length ≤ n) :
    inner.declaration (Spot.stream n ⟨ns, d.joined ++ after⟩) = .ok (i :: is, Spot.stream n ⟨ns', after⟩) := by
  have hjoined : d.joined ++ after = d.type.tokens ++ .name d.first.name ::
      (d.first.tail ++ (Declarator.list d.rest ++ .symbol .semicolon :: after)) := by
    simp [Declaration.joined, Declarator.tokens]
  have heof' : .eof ∉ d.first.tail ++ Declarator.list d.rest := by
    simp only [Declaration.joined, Declarator.tokens, List.mem_append, List.mem_cons, not_or] at heof ⊢
    exact ⟨heof.2.1.2, heof.2.2.1⟩
  have hlength : (d.first.tail ++ Declarator.list d.rest).length + 2 ≤ n := by
    simp only [Declaration.joined, Declarator.tokens, List.length_append, List.length_cons,
      List.length_nil] at hn ⊢
    omega
  have hrest : d.rest.length < n + 2 := Nat.lt_of_le_of_lt d.length_rest (by omega)
  generalize hx : (⟨ns', d.first.tail ++ (Declarator.list d.rest ++ .symbol .semicolon :: after)⟩ : Spot) = x
  have hlabel : at? (.symbol .leftParen) (x.stream n) = .ok (false, x.stream n) := by
    subst hx
    exact congrArg (fun b => Except.ok (b, _)) (decide_eq_false (Declarator.tail_head d.first d.rest))
  have hturns : loop (BlockParsers.declaratorTurn .nowhere) (d.first.name, t, []) (x.stream n) =
      .ok (i :: is, Spot.stream n ⟨ns', .symbol .semicolon :: after⟩) := by
    subst hx
    exact turns_list d.rest [] hrest hi his heof' (by omega)
  have haccept : accept (.symbol .semicolon) (Spot.stream n ⟨ns', .name d.first.name :: x.kinds⟩) =
      .ok (false, Spot.stream n ⟨ns', .name d.first.name :: x.kinds⟩) := rfl
  have hname : name (Spot.stream n ⟨ns', .name d.first.name :: x.kinds⟩) = .ok (d.first.name, x.stream n) := by
    subst hx
    rfl
  rw [hjoined, BlockParsers.declaration, bind_to span_stream, bind_to (ht _)]
  subst hx
  rw [bind_to haccept, if_neg (by simp), bind_to hname, bind_to hlabel, if_neg (by simp),
    BlockParsers.declarators_eq]
  exact bind_to hturns

end Declarators

/-! ## Reading types -/

/-- The type that a word stands for. -/
def Keyword.typeKind : Keyword → TypeKind
  | .kwInt => .int
  | .kwFloat => .float
  | .kwString => .string
  | _ => .void

namespace Specifier

variable {n m : Nat} {ns ns' : List String} {t : TypeSpec} {r : List Token.Kind}

theorem typeSpecN_word {k : Keyword} (h : k.isWord = true) :
    typeSpecN (m + 1) (Spot.stream n ⟨ns, .keyword k :: r⟩) =
      .ok (.simple k.typeKind .nowhere, Spot.stream n ⟨ns, r⟩) := by
  cases k <;> first | rfl | cases h

theorem typeSpecN_known {name : String} (h : name ∈ ns) :
    typeSpecN (m + 1) (Spot.stream n ⟨ns, .name name :: r⟩) =
      .ok (.named name .nowhere, Spot.stream n ⟨ns, r⟩) := by
  have hknown : isTypeName name (Spot.stream n ⟨ns, .name name :: r⟩) =
      .ok (true, Spot.stream n ⟨ns, .name name :: r⟩) := by
    rw [← List.contains_iff_mem.mpr h]
    rfl
  show typeLayer _ _ = _
  unfold typeLayer
  rw [bind_to span_stream]
  dsimp only
  rw [bind_to kind_stream]
  exact (bind_to hknown).trans rfl

theorem read?_word {k : Keyword} (h : k.isWord = true) :
    (word k h).read? ns = some (.simple k.typeKind .nowhere, ns) := by
  cases k <;> first | rfl | cases h

theorem read?_known_of_mem {name : String} (h : name ∈ ns) :
    (known name).read? ns = some (.named name .nowhere, ns) := by
  have hread : typeSpec (Spot.stream [Token.Kind.name name].length ⟨ns, [.name name]⟩) =
      .ok (.named name .nowhere, Spot.stream 1 ⟨ns, []⟩) := typeSpecN_known h
  unfold read? wholly
  rw [tokens, hread]
  rfl

theorem read?_known {name : String} (hr : (known name).read? ns = some (t, ns')) :
    name ∈ ns ∧ t = .named name .nowhere ∧ ns' = ns := by
  obtain ⟨s, hs, _, rfl⟩ := of_wholly hr
  change typeLayer _ _ = _ at hs
  unfold typeLayer at hs
  rw [bind_to span_stream] at hs
  dsimp only at hs
  rw [bind_to kind_stream] at hs
  obtain ⟨b, s', hknown, hs⟩ := bind_eq_ok hs
  cases hknown
  split at hs
  · rename_i h
    cases hs
    exact ⟨List.contains_iff_mem.mp h, rfl, rfl⟩
  · cases hs

/-- The end of a struct body, where one text is over and the other one goes on with a name. -/
def bodyEnd {n' : Nat} (hn : n ≤ n') (ns : List String) (label : String) (rest : List Token.Kind) : Parting where
  n := n
  n' := n'
  extra := 0
  le := hn
  again := False
  names := ns
  left := []
  right := .name label :: rest
  opens := rfl
  opens_right := rfl
  second _ h := by cases h
  block _ _ _ := .of_fail fun _ _ h => by cases h
  body _ _ _ _ := .of_fail fun _ _ h => by cases h

/-- A struct with its body is read the same with a name behind it. -/
theorem typeSpecN_body {n' m' : Nat} {name : String} {ks : List Token.Kind} {s : Stream Ribbon}
    (h : typeSpecN m (Spot.stream n ⟨ns, (body name ks).tokens⟩) = .ok (t, s)) (hend : s.current.kind = .eof)
    (heof : .eof ∉ (body name ks).tokens) (hlength : (body name ks).tokens.length ≤ m) (hn : n ≤ n')
    (hm : m ≤ m') (label : String) (rest : List Token.Kind) :
    s = Spot.stream n ⟨s.typeNames, []⟩ ∧
      typeSpecN m' (Spot.stream n' ⟨ns, (body name ks).tokens ++ .name label :: rest⟩) =
        .ok (t, Spot.stream n' ⟨s.typeNames, .name label :: rest⟩) := by
  let P := bodyEnd hn (structNames (name :: ns) (.symbol .leftBrace :: ks)) label rest
  have hfront : .eof ∉ [.keyword .kwStruct, .name name, .symbol .leftBrace] ++ ks :=
    fun h => heof (List.mem_append_left _ h)
  have hnear : P.Near true (body name ks).tokens.length ⟨ns, (body name ks).tokens⟩
      ⟨ns, (body name ks).tokens ++ .name label :: rest⟩ :=
    ⟨Nat.le_refl _, .inl ⟨rfl, _, .symbol .rightBrace, rfl, hfront, rfl, by simp [tokens, P, bodyEnd], rfl, rfl⟩⟩
  obtain ⟨x, rfl, ⟨y, hy, hxy⟩ | hl⟩ := Parting.echoes_typeSpecN m hlength hm true _ _ hnear t s h
  · rcases hxy with ⟨_, ⟨_, ks', b, hb, heof', hx, _⟩ | ⟨hagain, _⟩⟩ | ⟨_, _, rfl, rfl⟩
    -- before the end of the body there are tokens left
    · change x.kind = .eof at hend
      rw [Spot.kind, hx] at hend
      cases ks' with
      | nil => cases hend; cases hb
      | cons k ks' => exact absurd (hend ▸ List.mem_cons_self) heof'
    · exact hagain.elim
    · exact ⟨rfl, hy⟩
  · exact hl.elim

theorem typeLayer_struct {inner : Parser Ribbon TypeSpec} {x : Spot}
    (h : x.kind = .keyword .kwStruct) :
    typeLayer inner (x.stream n) = structTail inner .nowhere (x.next.stream n) := by
  unfold typeLayer
  rw [bind_to span_stream]
  dsimp only
  rw [bind_to kind_stream, h]
  rfl

/-- The name of a struct is known from where it stands. -/
theorem structTail_named {inner : Parser Ribbon TypeSpec} {name : String} :
    structTail inner .nowhere (Spot.stream n ⟨ns, .name name :: r⟩) =
      structRest inner .nowhere (some name) (Spot.stream n ⟨name :: ns, r⟩) := by
  rw [structTail_eq, bind_to (name?_stream rfl)]
  rfl

theorem read?_body {name : String} {ks : List Token.Kind} (hr : (body name ks).read? ns = some (t, ns'))
    (heof : .eof ∉ (body name ks).tokens) : ∃ decls, t = .body (some name) decls .nowhere := by
  obtain ⟨s, hs, hend, _⟩ := of_wholly hr
  obtain ⟨hspot, _⟩ := typeSpecN_body hs hend heof (Nat.le_add_right _ 2) (Nat.le_refl _) (Nat.le_refl _) name []
  rw [hspot] at hs
  change typeLayer _ _ = _ at hs
  have hnext : Spot.next ⟨ns, (body name ks).tokens⟩ =
      ⟨ns, .name name :: .symbol .leftBrace :: (ks ++ [.symbol .rightBrace])⟩ := rfl
  rw [typeLayer_struct rfl, hnext, structTail_named] at hs
  have haccept : ∀ n r, accept (.symbol .leftBrace) (Spot.stream n ⟨name :: ns, .symbol .leftBrace :: r⟩) =
      .ok (true, Spot.stream n ⟨name :: ns, r⟩) := fun _ _ => rfl
  rw [structRest, bind_to (haccept _ _), if_pos rfl] at hs
  obtain ⟨decls, s₁, _, hs⟩ := bind_eq_ok hs
  obtain ⟨u, s₂, hexpect, hs⟩ := bind_eq_ok hs
  cases hs
  exact ⟨decls, rfl⟩

/-- The type for more variables has no body. -/
theorem members_next {T : Specifier} (h : T.next.read? ns = some (t, ns')) : t.members = none := by
  have hknown : ∀ name, (known name).read? ns = some (t, ns') → t.members = none := by
    intro name h
    obtain ⟨_, rfl, _⟩ := read?_known h
    rfl
  cases T with
  | word k hk =>
      obtain ⟨rfl, _⟩ := Option.some.inj ((read?_word hk).symm.trans h)
      rfl
  | known name => exact hknown name h
  | struct name =>
      cases h
      rfl
  | body name ks => exact hknown name h

/-- **A type is read as it is by itself in front of a name.** -/
theorem typeSpecN_tokens {T : Specifier} (h : T.read? ns = some (t, ns')) (heof : .eof ∉ T.tokens)
    (hm : T.tokens.length + 2 ≤ m) (hn : T.tokens.length ≤ n) (label : String) (rest : List Token.Kind) :
    typeSpecN m (Spot.stream n ⟨ns, T.tokens ++ .name label :: rest⟩) =
      .ok (t, Spot.stream n ⟨ns', .name label :: rest⟩) := by
  obtain ⟨m, rfl⟩ : ∃ j, m = j + 1 := ⟨m - 1, by omega⟩
  cases T with
  | word k hk =>
      obtain ⟨rfl, rfl⟩ := Option.some.inj ((read?_word hk).symm.trans h)
      exact typeSpecN_word hk
  | known name =>
      obtain ⟨hmem, rfl, rfl⟩ := read?_known h
      exact typeSpecN_known hmem
  | struct name =>
      cases h
      rfl
  | body name ks =>
      obtain ⟨s, hs, hend, rfl⟩ := of_wholly h
      exact (typeSpecN_body hs hend heof (Nat.le_add_right _ 2) hn hm label rest).2

/-- The type for more variables is the one that the parser goes on with, and can be read ever after. -/
theorem read?_next {T : Specifier} {t' : TypeSpec} {ns'' : List String} (h : T.read? ns = some (t, ns'))
    (h' : T.next.read? ns' = some (t', ns'')) (heof : .eof ∉ T.tokens) :
    t' = t.forNext ∧ ∀ ns₁ : List String, (∀ text ∈ ns', text ∈ ns₁) →
      ∃ ns₂, (∀ text, text ∈ ns₂ ↔ text ∈ ns₁) ∧ T.next.read? ns₁ = some (t', ns₂) := by
  have hknown : ∀ name t', (known name).read? ns' = some (t', ns'') → t' = .named name .nowhere ∧
      ∀ ns₁ : List String, (∀ text ∈ ns', text ∈ ns₁) →
        ∃ ns₂, (∀ text, text ∈ ns₂ ↔ text ∈ ns₁) ∧ (known name).read? ns₁ = some (t', ns₂) := by
    intro name t' h'
    obtain ⟨hmem, rfl, _⟩ := read?_known h'
    exact ⟨rfl, fun ns₁ hns => ⟨ns₁, fun _ => .rfl, read?_known_of_mem (hns name hmem)⟩⟩
  cases T with
  | word k hk =>
      obtain ⟨rfl, rfl⟩ := Option.some.inj ((read?_word hk).symm.trans h)
      obtain ⟨rfl, rfl⟩ := Option.some.inj ((read?_word hk).symm.trans h')
      exact ⟨rfl, fun ns₁ _ => ⟨ns₁, fun _ => .rfl, read?_word hk⟩⟩
  | known name =>
      obtain ⟨_, rfl, _⟩ := read?_known h
      exact hknown name t' h'
  | struct name =>
      cases h
      cases h'
      refine ⟨rfl, fun ns₁ hns => ⟨name :: ns₁, fun text => ⟨fun hmem => ?_, List.mem_cons_of_mem _⟩, rfl⟩⟩
      rcases List.mem_cons.mp hmem with rfl | hmem
      · exact hns _ List.mem_cons_self
      · exact hmem
  | body name ks =>
      obtain ⟨decls, rfl⟩ := read?_body h heof
      exact hknown name t' h'

end Specifier

/-! ## One list, and one declaration after the other -/

section Forms

variable {α : Type} {n m : Nat} {ns ns' : List String} {item : TypeSpec → Declarator → Option α}
  {p : Parser Ribbon (List α)}

/-- The text is read as the given items whatever comes behind it. -/
def Parser.ReadsAs (n : Nat) (p : Parser Ribbon (List α)) (ns : List String) (ks : List Token.Kind)
    (items : List α) (ns' : List String) : Prop :=
  ∀ after, p (Spot.stream n ⟨ns, ks ++ after⟩) = .ok (items, Spot.stream n ⟨ns', after⟩)

/-- The texts are read one after the other, each as one item. -/
inductive Parser.ReadsEach (n : Nat) (p : Parser Ribbon (List α)) :
    List String → List (List Token.Kind) → List α → List String → Prop
  | nil {ns : List String} : ReadsEach n p ns [] [] ns
  | cons {ns ns₁ ns' : List String} {ks : List Token.Kind} {kss : List (List Token.Kind)} {i : α}
      {is : List α} :
      ReadsAs n p ns ks [i] ns₁ → ReadsEach n p ns₁ kss is ns' → ReadsEach n p ns (ks :: kss) (i :: is) ns'

/-- A parser that reads lists of declarators, with types of a bounded number of levels. -/
def Parser.ReadsLists (n m : Nat) (p : Parser Ribbon (List α)) (item : TypeSpec → Declarator → Option α) :
    Prop :=
  ∀ (d : Declaration) (t : TypeSpec) (ns ns' : List String) (i : α) (is : List α),
    (∀ label rest, typeSpecN m (Spot.stream n ⟨ns, d.type.tokens ++ .name label :: rest⟩) =
      .ok (t, Spot.stream n ⟨ns', .name label :: rest⟩)) →
    item t d.first = some i → d.rest.mapM (item t.forNext) = some is → .eof ∉ d.joined →
    d.joined.length ≤ n → p.ReadsAs n ns d.joined (i :: is) ns'

namespace Declaration

variable {d : Declaration} {is : List α}

theorem gather_eq_some (h : d.gather item ns = some is) :
    ∃ t ns' t' ns'' i is', d.type.read? ns = some (t, ns') ∧ d.type.next.read? ns' = some (t', ns'') ∧
      item t d.first = some i ∧ d.rest.mapM (item t') = some is' ∧ is = i :: is' := by
  obtain ⟨⟨t, ns'⟩, ht, h⟩ := Option.bind_eq_some_iff.mp h
  obtain ⟨⟨t', ns''⟩, ht', h⟩ := Option.bind_eq_some_iff.mp h
  obtain ⟨i, hi, h⟩ := Option.bind_eq_some_iff.mp h
  obtain ⟨is', his, h⟩ := Option.bind_eq_some_iff.mp h
  exact ⟨t, ns', t', ns'', i, is', ht, ht', hi, his, (Option.some.inj h).symm⟩

theorem gather_of {t t' : TypeSpec} {ns'' : List String} {i : α} (ht : d.type.read? ns = some (t, ns'))
    (ht' : d.type.next.read? ns' = some (t', ns'')) (hi : item t d.first = some i)
    (his : d.rest.mapM (item t') = some is) : d.gather item ns = some (i :: is) := by
  simp [gather, ht, ht', hi, his]

theorem eof_next {T : Specifier} (h : .eof ∉ T.tokens) : .eof ∉ T.next.tokens := by
  cases T with
  | body name ks => simp [Specifier.next, Specifier.tokens]
  | _ => exact h

theorem length_next (T : Specifier) : T.next.tokens.length ≤ T.tokens.length := by
  cases T with
  | body name ks => simp [Specifier.next, Specifier.tokens]
  | _ => exact Nat.le_refl _

theorem eof_piece (heof : .eof ∉ d.joined) {e : Declarator} (he : e ∈ d.rest) :
    .eof ∉ (joined ⟨d.type.next, e, []⟩) := by
  simp only [joined, List.mem_append, not_or] at heof ⊢
  refine ⟨eof_next heof.1, fun h => heof.2.2.1 ?_, by simp [Declarator.list], by simp⟩
  exact List.mem_flatMap.mpr ⟨e, he, List.mem_cons_of_mem _ h⟩

theorem length_piece {e : Declarator} (he : e ∈ d.rest) :
    (joined ⟨d.type.next, e, []⟩).length ≤ d.joined.length := by
  have htype := length_next d.type
  have hlist : e.tokens.length ≤ (Declarator.list d.rest).length := by
    obtain ⟨ds, ds', hrest⟩ := List.append_of_mem he
    rw [hrest]
    simp only [Declarator.list, List.flatMap_append, List.flatMap_cons, List.length_append, List.length_cons]
    omega
  simp only [joined, Declarator.list, List.flatMap_nil, List.length_append, List.length_nil,
    List.length_cons] at hlist ⊢
  omega

theorem eof_part {ds ds' : List Declarator} (heof : .eof ∉ d.joined) (h : d.rest = ds ++ ds') :
    .eof ∉ joined ⟨d.type, d.first, ds⟩ := by
  simp only [joined, h, Declarator.list, List.flatMap_append, List.mem_append, not_or] at heof ⊢
  exact ⟨heof.1, heof.2.1, heof.2.2.1.1, heof.2.2.2⟩

theorem length_part {ds ds' : List Declarator} (h : d.rest = ds ++ ds') :
    (joined ⟨d.type, d.first, ds⟩).length ≤ d.joined.length := by
  simp only [joined, h, Declarator.list, List.flatMap_append, List.length_append]
  omega

variable {t : TypeSpec}

/-- **The list is read as its items.** -/
theorem reads_joined (hp : p.ReadsLists n m item) (hd : d.gather item ns = some is)
    (ht : d.type.read? ns = some (t, ns')) (heof : .eof ∉ d.joined) (hn : d.joined.length ≤ n)
    (hm : d.type.tokens.length + 2 ≤ m) : p.ReadsAs n ns d.joined is ns' := by
  obtain ⟨t₁, ns₁, t', ns'', i, is', ht₁, ht', hi, his, rfl⟩ := gather_eq_some hd
  obtain ⟨rfl, rfl⟩ := Option.some.inj (ht.symm.trans ht₁)
  have heof' : .eof ∉ d.type.tokens := fun h => heof (List.mem_append_left _ h)
  have hn' : d.type.tokens.length ≤ n := by
    simp only [joined, List.length_append] at hn
    omega
  obtain ⟨rfl, _⟩ := Specifier.read?_next ht ht' heof'
  exact hp d t ns ns' i is' (Specifier.typeSpecN_tokens ht heof' hm hn') hi his heof hn

/-- The variables after the first one, each declared by itself where the struct is known. -/
theorem reads_rest (hp : p.ReadsLists n m item) (heof : .eof ∉ d.joined) (hn : d.joined.length ≤ n)
    (hm : d.type.tokens.length + 2 ≤ m)
    (hnext : ∀ ns₁ : List String, (∀ text ∈ ns', text ∈ ns₁) →
      ∃ ns₂, (∀ text, text ∈ ns₂ ↔ text ∈ ns₁) ∧ d.type.next.read? ns₁ = some (t, ns₂))
    (ds : List Declarator) : (∀ e ∈ ds, e ∈ d.rest) → ∀ {is : List α} {ns₁ : List String},
    SameNames ns₁ ns' → ds.mapM (item t) = some is →
    ∃ ns₂, SameNames ns₂ ns' ∧
      p.ReadsEach n ns₁ (ds.map fun e => joined ⟨d.type.next, e, []⟩) is ns₂ := by
  have htype : d.type.next.tokens.length + 2 ≤ m := Nat.le_trans (Nat.add_le_add_right (length_next _) 2) hm
  have heof' : .eof ∉ d.type.tokens := fun h => heof (List.mem_append_left _ h)
  induction ds with
  | nil =>
      intro _ is ns₁ hns his
      cases his
      exact ⟨ns₁, hns, .nil⟩
  | cons e ds ih =>
      intro hds is ns₁ hns his
      obtain ⟨i, is', hi, his', rfl⟩ := mapM_cons_eq_some his
      have he : e ∈ d.rest := hds e List.mem_cons_self
      have hlength := Nat.le_trans (length_piece he) hn
      obtain ⟨ns₂, hns₂, hread⟩ := hnext ns₁ fun text h => (hns text).mpr h
      have hhead : p.ReadsAs n ns₁ (joined ⟨d.type.next, e, []⟩) [i] ns₂ := by
        refine hp ⟨d.type.next, e, []⟩ t ns₁ ns₂ i [] (fun label rest => ?_) hi rfl (eof_piece heof he) hlength
        refine Specifier.typeSpecN_tokens hread (eof_next heof') htype ?_ label rest
        simp only [joined, List.length_append] at hlength
        omega
      obtain ⟨ns₃, hns₃, htail⟩ := ih (fun e he => hds e (List.mem_cons_of_mem _ he))
        (fun text => (hns₂ text).trans (hns text)) his'
      exact ⟨ns₃, hns₃, .cons hhead htail⟩

/-- **The pieces are read as the items, one by one.** -/
theorem reads_pieces (hp : p.ReadsLists n m item) (hd : d.gather item ns = some is)
    (ht : d.type.read? ns = some (t, ns')) (heof : .eof ∉ d.joined) (hn : d.joined.length ≤ n)
    (hm : d.type.tokens.length + 2 ≤ m) :
    ∃ ns₂, SameNames ns₂ ns' ∧ p.ReadsEach n ns (d.pieces.map joined) is ns₂ := by
  obtain ⟨t₁, ns₁, t', ns'', i, is', ht₁, ht', hi, his, rfl⟩ := gather_eq_some hd
  obtain ⟨rfl, rfl⟩ := Option.some.inj (ht.symm.trans ht₁)
  have heof' : .eof ∉ d.type.tokens := fun h => heof (List.mem_append_left _ h)
  obtain ⟨_, hnext⟩ := Specifier.read?_next ht ht' heof'
  obtain ⟨ns₂, hns₂, hrest⟩ := reads_rest hp heof hn hm hnext d.rest (fun _ h => h) (fun _ => .rfl) his
  have hlength := Nat.le_trans (length_part (List.nil_append d.rest).symm) hn
  have hfirst : p.ReadsAs n ns (joined ⟨d.type, d.first, []⟩) [i] ns' := by
    refine hp ⟨d.type, d.first, []⟩ t ns ns' i [] (fun label rest => ?_) hi rfl
      (eof_part heof (List.nil_append d.rest).symm) hlength
    refine Specifier.typeSpecN_tokens ht heof' hm ?_ label rest
    simp only [joined, List.length_append] at hlength
    omega
  refine ⟨ns₂, hns₂, .cons hfirst ?_⟩
  rw [List.map_map]
  exact hrest

end Declaration

end Forms

end Jaf
