import Jaf.Proofs.Parser.Declarators

/-!
# Loops that take declarations

Declarations of variables stand in three loops, that over the declarations of a script, that over the items of a
block and that over the members of a struct. All of them add up what a declaration is read as and go on. So a
loop gets past a list of declarators in one turn, and past its pieces in as many turns as there are variables,
and has added up the same items (`Declaration.Taken`).

In the body of a struct there are no initializers. Where there is one, the loop does not get past the list, and
not past the pieces either, though it may get past some of them (`Declaration.Refused`).
-/

namespace Jaf

open Jaf.Parser

/-! ## Loops over declarations -/

section Loops

variable {α β : Type} {n : Nat} {ns ns' : List String} {p : Parser Ribbon (List α)}
  {turn : List α → Parser Ribbon (Turn (List α) β)}

/-- A loop that adds up what is read, and goes on where something can be read. -/
def Parser.Advances (n : Nat) (p : Parser Ribbon (List α)) (turn : List α → Parser Ribbon (Turn (List α) β)) :
    Prop :=
  ∀ (x : Spot) (is : List α) (s : Stream Ribbon) (acc : List α), p (x.stream n) = .ok (is, s) →
    turn acc (x.stream n) = .ok (.again (acc ++ is), s)

theorem Parser.Advances.loopN_reads (h : p.Advances n turn) {ks : List Token.Kind} {is : List α}
    (hr : p.ReadsAs n ns ks is ns') (m : Nat) (acc : List α) (after : List Token.Kind) :
    loopN turn (m + 1) acc (Spot.stream n ⟨ns, ks ++ after⟩) =
      loopN turn m (acc ++ is) (Spot.stream n ⟨ns', after⟩) :=
  bind_to (h _ _ _ acc (hr after))

theorem Parser.Advances.loopN_readsEach (h : p.Advances n turn) {kss : List (List Token.Kind)} {is : List α}
    (hr : p.ReadsEach n ns kss is ns') (m : Nat) (acc : List α) (after : List Token.Kind) :
    loopN turn (m + kss.length) acc (Spot.stream n ⟨ns, kss.flatten ++ after⟩) =
      loopN turn m (acc ++ is) (Spot.stream n ⟨ns', after⟩) := by
  induction hr generalizing acc with
  | nil => rw [List.append_nil]; rfl
  | @cons ns ns₁ ns' ks kss i is hhead _ ih =>
      rw [List.flatten_cons, List.append_assoc, List.length_cons, ← Nat.add_assoc]
      rw [h.loopN_reads hhead, ih, List.append_assoc]
      rfl

end Loops

/-! ## Members -/

section Members

/-- The member that is declared, which has no initializer. -/
def Declarator.member? (t : TypeSpec) (d : Declarator) : Option VarDecl :=
  match d.init with
  | none => some (.plain (some d.name) t .nowhere)
  | some _ => none

variable {n m : Nat} {ns ns' : List String} {after : List Token.Kind}

theorem Declarator.tokens_bare {d : Declarator} (h : d.init = none) : d.tokens = [.name d.name] := by
  simp [Declarator.tokens, Declarator.tail, h]

theorem Declarator.of_member? {d : Declarator} {t : TypeSpec} {i : VarDecl} (h : d.member? t = some i) :
    d.tokens = [.name d.name] ∧ i = .plain (some d.name) t .nowhere := by
  unfold Declarator.member? at h
  split at h
  · exact ⟨tokens_bare ‹_›, (Option.some.inj h).symm⟩
  · cases h

theorem Declarator.list_cons (d : Declarator) (ds : List Declarator) (ks : List Token.Kind) :
    list (d :: ds) ++ ks = .symbol .comma :: (d.tokens ++ (list ds ++ ks)) := by
  simp [Declarator.list]

theorem memberTurn_more {d : Declarator} (h : d.tokens = [.name d.name]) (t : TypeSpec) (acc : List VarDecl) :
    loopN (memberTurn .nowhere) (m + 1) (t, acc) (Spot.stream n ⟨ns, d.tokens ++ .symbol .comma :: after⟩) =
      loopN (memberTurn .nowhere) m (t.forNext, acc ++ [.plain (some d.name) t .nowhere])
        (Spot.stream n ⟨ns, after⟩) := by
  rw [h]
  rfl

/-- A list of members up to the semicolon. -/
theorem memberTurns_list (ds : List Declarator) : ∀ {d : Declarator} {t : TypeSpec} {i : VarDecl}
    {is : List VarDecl} {m : Nat} (acc : List VarDecl), ds.length < m → d.member? t = some i →
    ds.mapM (Declarator.member? t.forNext) = some is →
    loopN (memberTurn .nowhere) m (t, acc)
        (Spot.stream n ⟨ns, d.tokens ++ (Declarator.list ds ++ .symbol .semicolon :: after)⟩) =
      .ok (acc ++ i :: is, Spot.stream n ⟨ns, .symbol .semicolon :: after⟩) := by
  induction ds with
  | nil =>
      intro d t i is m acc hm hi his
      obtain ⟨m, rfl⟩ : ∃ j, m = j + 1 := ⟨m - 1, by omega⟩
      cases his
      obtain ⟨htokens, rfl⟩ := Declarator.of_member? hi
      rw [htokens]
      rfl
  | cons d' ds ih =>
      intro d t i is m acc hm hi his
      obtain ⟨m, rfl⟩ : ∃ j, m = j + 1 := ⟨m - 1, by omega⟩
      obtain ⟨i', is', hi', his', rfl⟩ := mapM_cons_eq_some his
      obtain ⟨htokens, rfl⟩ := Declarator.of_member? hi
      have hnext : ds.mapM (Declarator.member? t.forNext.forNext) = some is' := by
        rw [TypeSpec.forNext_forNext]
        exact his'
      simp only [List.length_cons] at hm
      rw [Declarator.list_cons, memberTurn_more htokens, ih _ (by omega) hi' hnext, List.append_assoc]
      rfl

/-- A list of members in which there is an initializer is not read up to its semicolon. -/
theorem memberTurns_stop (ds : List Declarator) : ∀ {d : Declarator} {t : TypeSpec} {m : Nat}
    (acc : List VarDecl), (∃ e ∈ d :: ds, e.init ≠ none) → ∀ r s,
    loopN (memberTurn .nowhere) m (t, acc)
        (Spot.stream n ⟨ns, d.tokens ++ (Declarator.list ds ++ .symbol .semicolon :: after)⟩) = .ok (r, s) →
      s.current.kind = .symbol .eq := by
  induction ds with
  | nil =>
      rintro d t m acc ⟨e, he, hinit⟩ r s hs
      obtain rfl := List.mem_singleton.mp he
      obtain ⟨ks, hks⟩ := Option.ne_none_iff_exists'.mp hinit
      cases m with
      | zero => cases hs
      | succ m =>
          simp only [Declarator.tokens, Declarator.tail, hks] at hs
          cases hs
          rfl
  | cons d' ds ih =>
      rintro d t m acc ⟨e, he, hinit⟩ r s hs
      cases m with
      | zero => cases hs
      | succ m =>
          cases hd : d.init with
          | some ks =>
              simp only [Declarator.tokens, Declarator.tail, hd] at hs
              cases hs
              rfl
          | none =>
              rw [Declarator.list_cons, memberTurn_more (Declarator.tokens_bare hd)] at hs
              refine ih _ ⟨e, ?_, hinit⟩ r s hs
              rcases List.mem_cons.mp he with rfl | he
              · exact absurd hd hinit
              · exact he

/-- Where there is an initializer, there is a first one. -/
theorem Declarator.first_init {ds : List Declarator} (h : ∃ e ∈ ds, e.init ≠ none) :
    ∃ ds₁ e ds₂, ds = ds₁ ++ e :: ds₂ ∧ (∀ e ∈ ds₁, e.init = none) ∧ e.init ≠ none := by
  obtain ⟨e, he, hinit⟩ := h
  obtain ⟨e, hfind⟩ := Option.isSome_iff_exists.mp (List.find?_isSome.mpr
    (show ∃ e ∈ ds, e.init.isSome from ⟨e, he, Option.isSome_iff_ne_none.mpr hinit⟩))
  obtain ⟨he, ds₁, ds₂, hds, hbare⟩ := List.find?_eq_some_iff_append.mp hfind
  exact ⟨ds₁, e, ds₂, hds, fun e he => by simpa using hbare e he, Option.isSome_iff_ne_none.mp he⟩

theorem readsLists_declaration (inner : BlockParsers Ribbon) :
    inner.declaration.ReadsLists n (n + 2) Declarator.item? := by
  intro d t ns ns' i is ht hi his heof hn after
  exact declaration_list inner (ht _) hi his heof hn

section Lists

variable {d : Declaration} {t : TypeSpec}

/-- The members behind their type. -/
theorem members_behind
    (ht : ∀ label rest, typeSpecN m (Spot.stream n ⟨ns, d.type.tokens ++ .name label :: rest⟩) =
      .ok (t, Spot.stream n ⟨ns', .name label :: rest⟩)) :
    members (typeSpecN m) (Spot.stream n ⟨ns, d.joined ++ after⟩) =
      (loop (memberTurn .nowhere) (t, []) >>= fun decls => expect (.symbol .semicolon) >>= fun _ => pure decls)
        (Spot.stream n ⟨ns', d.first.tokens ++ (Declarator.list d.rest ++ .symbol .semicolon :: after)⟩) := by
  have hjoined : d.joined ++ after = d.type.tokens ++ .name d.first.name ::
      (d.first.tail ++ (Declarator.list d.rest ++ .symbol .semicolon :: after)) := by
    simp [Declaration.joined, Declarator.tokens]
  have haccept : ∀ r, accept (.symbol .semicolon) (Spot.stream n ⟨ns', .name d.first.name :: r⟩) =
      .ok (false, Spot.stream n ⟨ns', .name d.first.name :: r⟩) := fun _ => rfl
  rw [hjoined, members_eq, bind_to span_stream, bind_to (ht _ _), bind_to (haccept _), if_neg (by simp)]
  rfl

theorem readsLists_members : (members (typeSpecN m)).ReadsLists n m Declarator.member? := by
  intro d t ns ns' i is ht hi his heof hn after
  have hrest : d.rest.length < n + 2 := Nat.lt_of_le_of_lt d.length_rest (by omega)
  rw [members_behind ht]
  have hturns : loop (memberTurn .nowhere) (t, []) (Spot.stream n ⟨ns', d.first.tokens ++
      (Declarator.list d.rest ++ .symbol .semicolon :: after)⟩) =
        .ok (i :: is, Spot.stream n ⟨ns', .symbol .semicolon :: after⟩) :=
    memberTurns_list d.rest [] hrest hi his
  exact bind_to hturns

/-- In the body of a struct there are no initializers. -/
theorem members_init
    (ht : ∀ label rest, typeSpecN m (Spot.stream n ⟨ns, d.type.tokens ++ .name label :: rest⟩) =
      .ok (t, Spot.stream n ⟨ns', .name label :: rest⟩))
    (hinit : ∃ e ∈ d.first :: d.rest, e.init ≠ none) (ds : List VarDecl) (s : Stream Ribbon) :
    members (typeSpecN m) (Spot.stream n ⟨ns, d.joined ++ after⟩) ≠ .ok (ds, s) := by
  intro hs
  rw [members_behind ht] at hs
  obtain ⟨decls, s₁, hloop, hs⟩ := bind_eq_ok hs
  obtain ⟨u, s₂, hexpect, _⟩ := bind_eq_ok hs
  have hkind : s₁.current.kind = .symbol .eq := memberTurns_stop d.rest [] hinit decls s₁ hloop
  unfold expect at hexpect
  rw [bind_to (show kind s₁ = .ok (.symbol .eq, s₁) by rw [← hkind]; rfl)] at hexpect
  cases hexpect

end Lists

end Members

/-! ## Loops that stand in front of a declaration -/

section Turns

variable {α β : Type} {n m m' : Nat} {x : Spot}

theorem Parser.loopN_mono {turn : α → Parser Ribbon (Turn α β)} {a : α} {s : Stream Ribbon}
    {r : β × Stream Ribbon} (hm : m ≤ m') (h : loopN turn m a s = .ok r) : loopN turn m' a s = .ok r := by
  induction m generalizing m' a s with
  | zero => cases h
  | succ m ih =>
      obtain ⟨m', rfl⟩ : ∃ j, m' = j + 1 := ⟨m' - 1, by omega⟩
      obtain ⟨t, s₁, hturn, h⟩ := bind_eq_ok h
      refine (bind_to hturn).trans ?_
      cases t with
      | again a' => exact ih (by omega) h
      | done b => exact h

/-- Where a type can be read, one begins. -/
theorem Parser.starts_of_typeSpecN {t : TypeSpec} {s : Stream Ribbon}
    (h : typeSpecN m (x.stream n) = .ok (t, s)) :
    x.kind.opensType = true ∧ startsType (x.stream n) = .ok (true, x.stream n) := by
  cases m with
  | zero => cases h
  | succ m =>
      change typeLayer _ _ = _ at h
      unfold typeLayer at h
      rw [bind_to span_stream] at h
      dsimp only at h
      rw [bind_to kind_stream] at h
      unfold startsType
      rw [bind_to kind_stream]
      generalize x.kind = k at h
      cases k with
      | keyword word => cases word <;> first | exact ⟨rfl, rfl⟩ | cases h
      | name text =>
          refine ⟨rfl, ?_⟩
          have hknown : isTypeName text (x.stream n) = .ok (x.names.contains text, x.stream n) := rfl
          dsimp only at h ⊢
          rw [bind_to hknown] at h
          rw [hknown]
          cases hc : x.names.contains text with
          | true => rfl
          | false =>
              rw [hc] at h
              cases h
      | _ => cases h

theorem Parser.starts_of_declaration {inner : BlockParsers Ribbon} {items : List Item} {s : Stream Ribbon}
    (h : inner.declaration (x.stream n) = .ok (items, s)) :
    x.kind.opensType = true ∧ startsType (x.stream n) = .ok (true, x.stream n) := by
  rw [BlockParsers.declaration, bind_to span_stream] at h
  obtain ⟨t, s₁, ht, _⟩ := bind_eq_ok h
  exact starts_of_typeSpecN ht

theorem Parser.advances_script : declaration.Advances n scriptTurn := by
  intro x items s acc h
  obtain ⟨hopens, hstarts⟩ := starts_of_declaration h
  have hne : x.kind ≠ .eof := fun h => by rw [h] at hopens; cases hopens
  have hat : at? .eof (x.stream n) = .ok (false, x.stream n) :=
    congrArg (fun b => Except.ok (b, _)) (decide_eq_false hne)
  rw [scriptTurn, bind_to hat, if_neg (by simp), bind_to hstarts, if_pos rfl, bind_to h]
  rfl

/-- A turn that neither ends the loop nor finds the end of file. -/
theorem BlockParsers.blockTurn_item {inner : BlockParsers Ribbon} (h : x.kind.opensType = true)
    (acc : List Item) : inner.blockTurn .nowhere acc (x.stream n) =
      (inner.item >>= fun items => pure (.again (acc ++ items))) (x.stream n) := by
  rw [blockTurn, bind_to kind_stream]
  generalize x.kind = k at h
  cases k with
  | name text => rfl
  | keyword word => rfl
  | _ => cases h

theorem BlockParsers.advances_block (k : Nat) :
    (blockParsers k).declaration.Advances n ((blockParsers (k + 1)).blockTurn .nowhere) := by
  intro x items s acc h
  obtain ⟨hopens, hstarts⟩ := starts_of_declaration h
  have hitem : (blockParsers (k + 1)).item (x.stream n) = .ok (items, s) := by
    show (blockParsers k).itemLayer (x.stream n) = _
    rw [itemLayer, bind_to hstarts, if_pos rfl, h]
  rw [blockTurn_item hopens, bind_to hitem]
  rfl

theorem Parser.bodyTurn_members {inner : Parser Ribbon TypeSpec} (h : x.kind.opensType = true)
    (acc : List VarDecl) : bodyTurn inner .nowhere acc (x.stream n) =
      (members inner >>= fun decls => pure (.again (acc ++ decls))) (x.stream n) := by
  rw [bodyTurn, bind_to kind_stream]
  generalize x.kind = k at h
  cases k with
  | name text => rfl
  | keyword word => rfl
  | _ => cases h

theorem Parser.advances_body : (members (typeSpecN m)).Advances n (bodyTurn (typeSpecN m) .nowhere) := by
  intro x decls s acc h
  have hopens : x.kind.opensType = true := by
    rw [members_eq, bind_to span_stream] at h
    obtain ⟨t, s₁, ht, _⟩ := bind_eq_ok h
    exact (starts_of_typeSpecN ht).1
  rw [bodyTurn_members hopens, bind_to h]
  rfl

end Turns

/-! ## Getting across -/

section Across

variable {α : Type} {n n' m : Nat} {ns ns' : List String} {is : List α} {d : Declaration} {t : TypeSpec}
  {f g : List α → Parser Ribbon (Turn (List α) (List α))} {item : TypeSpec → Declarator → Option α}
  {p : Parser Ribbon (List α)}

/-- The loop takes the list in one turn, and the pieces in one turn each, for the same items. -/
structure Declaration.Taken (n : Nat) (f : List α → Parser Ribbon (Turn (List α) (List α)))
    (d : Declaration) (ns : List String) (is : List α) (ns' : List String) : Prop where
  joined : ∀ after m acc, loopN f (m + 1) acc (Spot.stream n ⟨ns, d.joined ++ after⟩) =
    loopN f m (acc ++ is) (Spot.stream n ⟨ns', after⟩)
  separate : ∃ ns₂, SameNames ns₂ ns' ∧ ∀ after m acc,
    loopN f (m + d.pieces.length) acc (Spot.stream n ⟨ns, d.separate ++ after⟩) =
      loopN f m (acc ++ is) (Spot.stream n ⟨ns₂, after⟩)

/-- The loop does not get through the list, and not through the pieces. -/
structure Declaration.Refused (n : Nat) (f : List α → Parser Ribbon (Turn (List α) (List α)))
    (d : Declaration) (ns : List String) : Prop where
  joined : ∀ after m acc r, loopN f m acc (Spot.stream n ⟨ns, d.joined ++ after⟩) ≠ .ok r
  separate : ∀ after m acc r, loopN f m acc (Spot.stream n ⟨ns, d.separate ++ after⟩) ≠ .ok r

theorem Declaration.taken (hf : p.Advances n f) (hp : p.ReadsLists n m item)
    (hd : d.gather item ns = some is) (ht : d.type.read? ns = some (t, ns')) (heof : .eof ∉ d.joined)
    (hn : d.joined.length ≤ n) (hm : d.type.tokens.length + 2 ≤ m) : d.Taken n f ns is ns' where
  joined after m acc := hf.loopN_reads (reads_joined hp hd ht heof hn hm) m acc after
  separate := by
    obtain ⟨ns₂, hsame, hpieces⟩ := reads_pieces hp hd ht heof hn hm
    refine ⟨ns₂, hsame, fun after m acc => ?_⟩
    rw [← List.length_map joined, separate, List.flatMap_def]
    exact hf.loopN_readsEach hpieces m acc after

/-- Loops get across that take the declaration on both sides in some number of turns. -/
theorem crosses_turns {x y x' y' : Spot} {i j : Nat} (hsame : x'.Same y')
    (hlength : x'.kinds.length ≤ x.kinds.length)
    (hf : ∀ m acc, loopN f (m + i) acc (x.stream n) = loopN f m (acc ++ is) (x'.stream n))
    (hg : ∀ m acc, loopN g (m + j) acc (y.stream n') = loopN g m (acc ++ is) (y'.stream n')) :
    Crosses True n n' j x y f g := by
  intro acc m r hr
  refine ⟨trivial, acc ++ is, x', y', hsame, hlength, ?_, fun m' => hg m' acc⟩
  rw [← hf]
  exact loopN_mono (Nat.le_add_right m i) hr

namespace Declaration

theorem Taken.splits (hf : d.Taken n f ns is ns') (hg : d.Taken n' g ns is ns') (after : List Token.Kind) :
    Crosses True n n' d.pieces.length ⟨ns, d.joined ++ after⟩ ⟨ns, d.separate ++ after⟩ f g := by
  obtain ⟨ns₂, hsame, hseparate⟩ := hg.separate
  have hafter : Spot.Same ⟨ns', after⟩ ⟨ns₂, after⟩ := ⟨rfl, fun text => (hsame text).symm⟩
  exact crosses_turns hafter (by simp) (hf.joined after) (hseparate after)

theorem Taken.joins (hf : d.Taken n f ns is ns') (hg : d.Taken n' g ns is ns') (after : List Token.Kind) :
    Crosses True n n' 1 ⟨ns, d.separate ++ after⟩ ⟨ns, d.joined ++ after⟩ f g := by
  obtain ⟨ns₂, hsame, hseparate⟩ := hf.separate
  have hafter : Spot.Same ⟨ns₂, after⟩ ⟨ns', after⟩ := ⟨rfl, hsame⟩
  exact crosses_turns hafter (by simp) (hseparate after) (hg.joined after)

end Declaration

end Across

/-! ## Declarations in the three loops -/

namespace Declaration

variable {n m : Nat} {ns ns' : List String} {items : List Item} {d : Declaration} {t : TypeSpec}

theorem length_type (d : Declaration) : d.type.tokens.length + 2 ≤ d.joined.length := by
  simp only [joined, Declarator.tokens, List.length_append, List.length_cons, List.length_nil]
  omega

/-- A declaration begins with a token that can begin a type. -/
theorem opens_tokens (T : Specifier) (ks : List Token.Kind) :
    ((T.tokens ++ ks).headD .eof).opensType = true := by
  cases T with
  | word k hk => cases k <;> first | rfl | cases hk
  | _ => rfl

theorem opens_joined (d : Declaration) (ns : List String) (after : List Token.Kind) :
    (Spot.mk ns (d.joined ++ after)).kind.opensType = true := by
  rw [joined, List.append_assoc]
  exact opens_tokens _ _

theorem separate_eq (d : Declaration) :
    d.separate = joined ⟨d.type, d.first, []⟩ ++ d.rest.flatMap fun e => joined ⟨d.type.next, e, []⟩ := by
  rw [separate, pieces, List.flatMap_cons, List.flatMap_map]

theorem opens_separate (d : Declaration) (ns : List String) (after : List Token.Kind) :
    (Spot.mk ns (d.separate ++ after)).kind.opensType = true := by
  rw [separate_eq, List.append_assoc]
  exact opens_joined _ _ _

theorem readsLists_script : declaration.ReadsLists n (n + 2) Declarator.item? := by
  intro d t ns ns' i is ht hi his heof hn after
  show (blockParsers (n + 2)).declaration _ = _
  exact readsLists_declaration _ d t ns ns' i is ht hi his heof hn after

theorem taken_script (hd : d.items? ns = some items) (ht : d.type.read? ns = some (t, ns'))
    (heof : .eof ∉ d.joined) (hn : d.joined.length ≤ n) : d.Taken n scriptTurn ns items ns' :=
  have hlength := d.length_type
  taken advances_script readsLists_script hd ht heof hn (by omega)

theorem taken_block (k : Nat) (hd : d.items? ns = some items) (ht : d.type.read? ns = some (t, ns'))
    (heof : .eof ∉ d.joined) (hn : d.joined.length ≤ n) :
    d.Taken n ((blockParsers (k + 1)).blockTurn .nowhere) ns items ns' :=
  have hlength := d.length_type
  taken (BlockParsers.advances_block k) (readsLists_declaration (blockParsers k)) hd ht heof hn (by omega)

/-- No levels are left for the items of a block. -/
theorem refused_block : d.Refused n ((blockParsers 0).blockTurn .nowhere) ns := by
  have hrefused : ∀ (x : Spot), x.kind.opensType = true → ∀ m acc r,
      loopN ((blockParsers 0).blockTurn .nowhere) m acc (x.stream n) ≠ .ok r := by
    intro x hx m acc r hr
    cases m with
    | zero => cases hr
    | succ m =>
        obtain ⟨u, s, hturn, _⟩ := bind_eq_ok hr
        rw [BlockParsers.blockTurn_item hx] at hturn
        cases hturn
  exact ⟨fun after => hrefused _ (opens_joined d ns after), fun after => hrefused _ (opens_separate d ns after)⟩

/-- A loop over members that fails at once. -/
theorem body_fail {x : Spot} (hx : x.kind.opensType = true)
    (h : ∀ ds s, members (typeSpecN m) (x.stream n) ≠ .ok (ds, s)) (j : Nat) (acc : List VarDecl)
    (r : List VarDecl × Stream Ribbon) :
    loopN (bodyTurn (typeSpecN m) .nowhere) j acc (x.stream n) ≠ .ok r := by
  intro hr
  cases j with
  | zero => cases hr
  | succ j =>
      obtain ⟨u, s, hturn, _⟩ := bind_eq_ok hr
      rw [bodyTurn_members hx] at hturn
      obtain ⟨ds, s₁, hmembers, _⟩ := bind_eq_ok hturn
      exact h ds s₁ hmembers

/-- Variables without initializers are members as well. -/
theorem gather_member (hbare : ∀ e ∈ d.first :: d.rest, e.init = none) (ht : d.type.read? ns = some (t, ns'))
    {t' : TypeSpec} {ns'' : List String} (ht' : d.type.next.read? ns' = some (t', ns'')) :
    ∃ decls, d.gather Declarator.member? ns = some decls := by
  have hmember : ∀ e ∈ d.first :: d.rest, ∀ t, e.member? t = some (.plain (some e.name) t .nowhere) := by
    intro e he t
    rw [Declarator.member?, hbare e he]
  have hrest : d.rest.mapM (Declarator.member? t') =
      some (d.rest.map fun e => .plain (some e.name) t' .nowhere) := by
    have hall : ∀ e ∈ d.rest, e.member? t' = some (.plain (some e.name) t' .nowhere) :=
      fun e he => hmember e (List.mem_cons_of_mem _ he) t'
    generalize d.rest = ds at hall
    induction ds with
    | nil => rfl
    | cons e ds ih =>
        rw [List.mapM_cons, hall e List.mem_cons_self, ih fun e he => hall e (List.mem_cons_of_mem _ he)]
        rfl
  exact ⟨_, gather_of ht ht' (hmember d.first List.mem_cons_self t) hrest⟩

/-- With an initializer, the declaration does not get through the body of a struct. -/
theorem refused_body (hinit : ∃ e ∈ d.first :: d.rest, e.init ≠ none)
    (ht : d.type.read? ns = some (t, ns')) {t' : TypeSpec} {ns'' : List String}
    (ht' : d.type.next.read? ns' = some (t', ns'')) (heof : .eof ∉ d.joined) (hn : d.joined.length ≤ n)
    (hm : d.type.tokens.length + 2 ≤ m) : d.Refused n (bodyTurn (typeSpecN m) .nowhere) ns := by
  have heof' : .eof ∉ d.type.tokens := fun h => heof (List.mem_append_left _ h)
  have htype := d.length_type
  have hread := Specifier.typeSpecN_tokens ht heof' hm (show d.type.tokens.length ≤ n by omega)
  refine ⟨fun after => body_fail (opens_joined d ns after) (members_init hread hinit), ?_⟩
  intro after j acc r hr
  by_cases hfirst : d.first.init = none
  · -- the pieces before the first one with an initializer are read, and then the loop fails
    obtain ⟨e, he, hinit⟩ := hinit
    have he : e ∈ d.rest := (List.mem_cons.mp he).resolve_left fun h => hinit (h ▸ hfirst)
    obtain ⟨ds, e, ds', hrest, hbare, he⟩ := Declarator.first_init ⟨e, he, hinit⟩
    have hfirsts : ∀ e ∈ d.first :: ds, e.init = none := by
      intro e he
      rcases List.mem_cons.mp he with rfl | he
      · exact hfirst
      · exact hbare e he
    obtain ⟨decls, hdecls⟩ := gather_member (d := ⟨d.type, d.first, ds⟩) hfirsts ht ht'
    have hlength := Nat.le_trans (length_part hrest) hn
    obtain ⟨ns₂, hsame, hturns⟩ := (taken advances_body readsLists_members hdecls ht (eof_part heof hrest)
      hlength hm).separate
    obtain ⟨ns₃, _, hnext⟩ := (Specifier.read?_next ht ht' heof').2 ns₂ fun text h => (hsame text).mpr h
    have htype' := length_next d.type
    have hread' := Specifier.typeSpecN_tokens hnext (eof_next heof') (show _ ≤ m by omega) (show _ ≤ n by omega)
    have hseparate : d.separate ++ after = separate ⟨d.type, d.first, ds⟩ ++ (joined ⟨d.type.next, e, []⟩ ++
        ((ds'.flatMap fun e => joined ⟨d.type.next, e, []⟩) ++ after)) := by
      simp [separate_eq, hrest]
    have hmore := loopN_mono (Nat.le_add_right j (pieces ⟨d.type, d.first, ds⟩).length) hr
    rw [hseparate, hturns] at hmore
    refine body_fail (opens_joined _ _ _) (members_init (d := ⟨d.type.next, e, []⟩) hread' ?_) j _ r hmore
    exact ⟨e, List.mem_cons_self, he⟩
  · rw [separate_eq, List.append_assoc] at hr
    refine body_fail (opens_joined _ _ _) (members_init (d := ⟨d.type, d.first, []⟩) hread ?_) j acc r hr
    exact ⟨d.first, List.mem_cons_self, hfirst⟩

end Declaration

end Jaf
