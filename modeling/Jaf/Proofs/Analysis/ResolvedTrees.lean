import Jaf.Proofs.Analysis.LexicalScoping
import Jaf.Proofs.Analysis.PassMoves

/-!
# What becomes of a program

The first two passes write struct numbers and slots into the tree. This module says which tree comes out,
in terms of the tree that was parsed: `Item.Becomes` relates a top-level item to what has become of it.
Types are resolved, the parameters and locals of a function are numbered in the order of the text, and
nothing else changes. The numbers of functions and globals are not part of the relation, since they depend
on the other items.

The proof goes along the parts of a program. Settling types keeps the outline of every part, so the types
of the two trees can be paired part by part (`forall₂_of_flatMap`), and numbering is known exactly
(`Part.numberFrom`). Together with what is known of the tables this gives the main result: the tables list
the declarations of the text in their order, and each declaration carries its position.
-/

namespace Jaf

/-! ## Lists in step -/

section Lists

variable {α α' β β' γ : Type}

theorem forall₂_append {T : β → β' → Prop} {us vs : List β} {us' vs' : List β'}
    (hlength : us.length = us'.length) (h : List.Forall₂ T (us ++ vs) (us' ++ vs')) :
    List.Forall₂ T us us' ∧ List.Forall₂ T vs vs' := by
  have htake := List.forall₂_take_append _ _ _ h
  have hdrop := List.forall₂_drop_append _ _ _ h
  rw [List.take_left' hlength] at htake
  rw [List.drop_left' hlength] at hdrop
  exact ⟨htake, hdrop⟩

/-- A list in step with one that is cut at an entry is cut at the same place. -/
theorem forall₂_cut {T : β → β' → Prop} {us : List β} {us' vs' : List β'} {b' : β'}
    (h : List.Forall₂ T us (us' ++ b' :: vs')) :
    ∃ ws b vs, us = ws ++ b :: vs ∧ List.Forall₂ T ws us' ∧ T b b' := by
  induction us' generalizing us with
  | nil =>
      obtain ⟨b, vs, hb, _, rfl⟩ := List.forall₂_cons_right_iff.mp h
      exact ⟨[], b, vs, rfl, .nil, hb⟩
  | cons u' us' ih =>
      obtain ⟨u, us, hu, hus, rfl⟩ := List.forall₂_cons_right_iff.mp h
      obtain ⟨ws, b, vs, rfl, hws, hb⟩ := ih hus
      exact ⟨u :: ws, b, vs, rfl, .cons hu hws, hb⟩

/-- Lists that are put together from pieces of the same lengths are related piece by piece. -/
theorem forall₂_of_flatMap {R : α → α' → Prop} {T : β → β' → Prop} {g : α → List β}
    {g' : α' → List β'} {as : List α} {as' : List α'} (hR : List.Forall₂ R as as')
    (hlength : ∀ a a', R a a' → (g a).length = (g' a').length)
    (hT : List.Forall₂ T (as.flatMap g) (as'.flatMap g')) :
    List.Forall₂ (fun a a' => R a a' ∧ List.Forall₂ T (g a) (g' a')) as as' := by
  induction hR with
  | nil => exact .nil
  | @cons a a' as as' ha _ ih =>
      rw [List.flatMap_cons, List.flatMap_cons] at hT
      obtain ⟨hfirst, hrest⟩ := forall₂_append (hlength a a' ha) hT
      exact .cons ⟨ha, hfirst⟩ (ih hrest)

theorem forall₂_comp {R : α → β → Prop} {S : β → γ → Prop} {T : α → γ → Prop}
    (h : ∀ a b c, R a b → S b c → T a c) {as : List α} {bs : List β} {cs : List γ}
    (hR : List.Forall₂ R as bs) (hS : List.Forall₂ S bs cs) : List.Forall₂ T as cs := by
  induction hR generalizing cs with
  | nil => cases hS; exact .nil
  | cons hab _ ih =>
      cases hS with
      | cons hbc hS => exact .cons (h _ _ _ hab hbc) (ih hS)

theorem forall₂_and {R S : α → β → Prop} {as : List α} {bs : List β} (hR : List.Forall₂ R as bs)
    (hS : List.Forall₂ S as bs) : List.Forall₂ (fun a b => R a b ∧ S a b) as bs := by
  induction hR with
  | nil => exact .nil
  | cons hab _ ih =>
      obtain ⟨hab', hS⟩ := List.forall₂_cons.mp hS
      exact .cons ⟨hab, hab'⟩ (ih hS)

/-- Lists with the same image under a map are related by having the same image. -/
theorem forall₂_of_map_eq {f : α → γ} {g : β → γ} {as : List α} {bs : List β}
    (h : as.map f = bs.map g) : List.Forall₂ (fun a b => f a = g b) as bs := by
  rw [← List.forall₂_eq_eq_eq, List.forall₂_map_left_iff, List.forall₂_map_right_iff] at h
  exact h

theorem map_eq_of_forall₂ {R : α → β → Prop} {f : α → γ} {g : β → γ} (h : ∀ a b, R a b → f a = g b)
    {as : List α} {bs : List β} (hR : List.Forall₂ R as bs) : as.map f = bs.map g := by
  rw [← List.forall₂_eq_eq_eq, List.forall₂_map_left_iff, List.forall₂_map_right_iff]
  exact hR.imp h

end Lists

/-! ## Settled parts -/

/-- What settling types makes of a part. -/
def Part.Settled (c : Container) (p p' : Part) : Prop :=
  p'.bare = p.bare ∧ List.Forall₂ (TypeSpec.Resolves c) p.types p'.types

theorem Block.types_eq_flatMap (b : Block) : b.types = b.parts.flatMap Part.types := by
  rw [Block.types, ← Part.types_shallow, Block.shallow_parts]
  exact (Item.typesOf_shallow _).symm

theorem Block.parts_eq_flatMap (b : Block) : b.parts = b.items.flatMap Item.parts := by
  obtain ⟨items, p⟩ := b
  rw [Block.parts, Item.partsOf_eq_flatMap]

theorem Block.outline_bindTypes {b b' : Block} {s s' : Session}
    (h : b.bindTypes s = ⟨b', s', .ok ()⟩) :
    b.items.map (fun i => i.parts.map Part.outline) =
      b'.items.map fun i => i.parts.map Part.outline := by
  obtain ⟨b₁, s₁, _, hfirst, hsecond⟩ := Step.andThen_eq_ok.mp h
  have h₁ := Block.outline_updateTypes TypeSpec.addsNoName_registerNew b s
  have h₂ := Block.outline_updateTypes TypeSpec.addsNoName_bind b₁ s₁
  rw [hfirst] at h₁
  rw [hsecond] at h₂
  exact h₁.symm.trans h₂.symm

/-- **Settling types settles every part of every item** and changes nothing else. -/
theorem Block.settled_bindTypes {b b' : Block} {s s' : Session}
    (hb : ∀ i ∈ b.declarations, i.Written) (h : b.bindTypes s = ⟨b', s', .ok ()⟩) :
    List.Forall₂ (fun i i' => List.Forall₂ (Part.Settled s'.container) i.parts i'.parts)
      b.items b'.items := by
  -- the two trees have the same items with the same parts
  have hitems := forall₂_of_map_eq (Block.outline_bindTypes h)
  have hparts : List.Forall₂ (fun p p' => p.outline = p'.outline) b.parts b'.parts := by
    rw [Block.parts_eq_flatMap, Block.parts_eq_flatMap]
    exact List.rel_flatMap hitems fun i i' hi => forall₂_of_map_eq hi
  -- the types in them are resolved, in the same order
  have hends := Block.bindTypes_ends hb s
  rw [h] at hends
  obtain ⟨s₁, _, hwrites, hspecs⟩ := hends.ok () rfl
  have hresolves : List.Forall₂ (TypeSpec.Resolves s'.container) b.types b'.types :=
    hspecs.imp fun t t' hspec => hwrites.alike.resolves (TypeSpec.resolves_of_specs hspec)
  rw [Block.types_eq_flatMap, Block.types_eq_flatMap] at hresolves
  have hsettled : List.Forall₂ (Part.Settled s'.container) b.parts b'.parts := by
    refine (forall₂_of_flatMap hparts ?_ hresolves).imp ?_
    · intro p p' hp
      exact congrArg Prod.snd hp
    · intro p p' hp
      exact ⟨(congrArg Prod.fst hp.1).symm, hp.2⟩
  rw [Block.parts_eq_flatMap, Block.parts_eq_flatMap] at hsettled
  refine (forall₂_of_flatMap hitems ?_ hsettled).imp fun i i' hi => hi.2
  intro i i' hi
  simpa using congrArg List.length hi

/-! ## Items -/

/-- What becomes of a variable: it keeps all but its slot, and its type is resolved if it has a name. -/
structure VarDecl.Becomes (c : Container) (d d' : VarDecl) : Prop where
  name : d'.name = d.name
  init : d'.init = d.init
  span : d'.span = d.span
  type : d.name.isSome = true → d.type.Resolves c d'.type

/--
What becomes of a function: its types are resolved, and its locals are numbered on from the parameters.
-/
structure FuncHead.Becomes (c : Container) (h : FuncHead) (body : Block) (h' : FuncHead) (body' : Block) :
    Prop where
  name : h'.name = h.name
  span : h'.span = h.span
  result : h.result.Resolves c h'.result
  named : ∀ d ∈ h.params, d.name.isSome = true
  params : List.Forall₂ (VarDecl.Becomes c) h.params h'.params
  flat : ∀ p ∈ body.parts, p.isHead = false
  locals : List.Forall₂ (VarDecl.Becomes c) (Item.variables body.declarations)
    (Item.variables body'.declarations)
  body : body'.parts.map Part.bare = Part.numberFrom h.params.length (body.parts.map Part.bare)

/-- What becomes of a top-level item. -/
inductive Item.Becomes (c : Container) : Item → Item → Prop
  | var {d d' : VarDecl} : d.Becomes c d' → Becomes c (.var d) (.var d')
  | func {h h' : FuncHead} {body body' : Block} :
      h.Becomes c body h' body' → Becomes c (.func h body) (.func h' body')

variable {c : Container}

/-- A variable with a name is no type name alone. -/
theorem Part.types_var {d : VarDecl} (h : d.name.isSome = true) : Part.types (.var d) = [d.type] := by
  have hforward : d.isForward = false := by
    obtain ⟨name, hname⟩ := Option.isSome_iff_exists.mp h
    simp [VarDecl.isForward, hname]
  simp [Part.types, Item.types, hforward]

/-- A variable that is settled becomes what it is, whatever slot it gets. -/
theorem Part.Settled.becomes {d d' : VarDecl} (h : Part.Settled c (.var d) (.var d'))
    (slot : Option Nat) : d.Becomes c { d' with slot } := by
  obtain ⟨hbare, htypes⟩ := h
  have hbare : d'.bare = d.bare := Part.var.inj hbare
  have hname : d'.name = d.name := congrArg (·.name) hbare
  refine ⟨hname, congrArg (·.init) hbare, congrArg (·.span) hbare, fun hsome => ?_⟩
  rw [Part.types_var hsome, Part.types_var (hname ▸ hsome)] at htypes
  exact (List.forall₂_cons.mp htypes).1

theorem VarDecl.becomes_numberFrom {ds ds' : List VarDecl}
    (h : List.Forall₂ (fun d d' => ∀ slot, d.Becomes c { d' with slot }) ds ds') (n : Nat) :
    List.Forall₂ (VarDecl.Becomes c) ds (VarDecl.numberFrom n ds') := by
  induction h generalizing n with
  | nil => exact .nil
  | cons hd _ ih => exact .cons (hd _) (ih _)

/-- The named variables among settled parts are settled. -/
theorem Part.Settled.variables {ps ps' : List Part} (h : List.Forall₂ (Part.Settled c) ps ps') :
    List.Forall₂ (fun d d' => ∀ slot, d.Becomes c { d' with slot }) (Part.variables ps)
      (Part.variables ps') := by
  unfold Part.variables
  induction h with
  | nil => exact .nil
  | @cons p p' ps ps' hp _ ih =>
      have hdeclared : p'.declared?.map VarDecl.bare = p.declared?.map VarDecl.bare := by
        rw [← Part.declared?_bare, ← Part.declared?_bare, hp.1]
      cases hd : p.declared? with
      | none =>
          rw [hd, Option.map_none, Option.map_eq_none_iff] at hdeclared
          rwa [List.filterMap_cons_none hd, List.filterMap_cons_none hdeclared]
      | some d =>
          rw [hd, Option.map_some, Option.map_eq_some_iff] at hdeclared
          obtain ⟨d', hd', _⟩ := hdeclared
          rw [List.filterMap_cons_some hd, List.filterMap_cons_some hd']
          obtain ⟨rfl, _⟩ := Part.declared?_eq_some hd
          obtain ⟨rfl, _⟩ := Part.declared?_eq_some hd'
          exact .cons hp.becomes ih

theorem Part.Settled.bare {ps ps' : List Part} (h : List.Forall₂ (Part.Settled c) ps ps') :
    ps'.map Part.bare = ps.map Part.bare := by
  induction h with
  | nil => rfl
  | cons hp _ ih => rw [List.map_cons, List.map_cons, hp.1, ih]

/-- The types of a function that is settled are resolved. -/
theorem Part.Settled.head {h h' : FuncHead} (hs : Part.Settled c (.head h) (.head h')) :
    h'.name = h.name ∧ h'.span = h.span ∧ h.result.Resolves c h'.result ∧
      List.Forall₂ (fun d d' => ∀ slot, d.Becomes c { d' with slot }) h.params h'.params := by
  obtain ⟨hbare, htypes⟩ := hs
  have hbare : h'.bare = h.bare := Part.head.inj hbare
  obtain ⟨hresult, htypes⟩ := List.forall₂_cons.mp htypes
  refine ⟨congrArg (·.name) hbare, congrArg (·.span) hbare, hresult, ?_⟩
  have hparams : h.params.map VarDecl.bare = h'.params.map VarDecl.bare :=
    (congrArg FuncHead.params hbare).symm
  rw [List.forall₂_map_left_iff, List.forall₂_map_right_iff] at htypes
  refine (forall₂_and (forall₂_of_map_eq hparams) htypes).imp fun d d' hd slot => ?_
  have hbare : d'.bare = d.bare := hd.1.symm
  exact ⟨congrArg (·.name) hbare, congrArg (·.init) hbare, congrArg (·.span) hbare, fun _ => hd.2⟩

/-! ## Handing out numbers -/

/-- Nothing has changed but the functions and the globals. -/
structure Container.Beside (c c' : Container) : Prop where
  version : c'.version = c.version
  structs : c'.structs = c.structs
  initvals : c'.initvals = c.initvals

theorem Container.Beside.trans {a b c : Container} (h : a.Beside b) (h' : b.Beside c) : a.Beside c :=
  ⟨h'.version.trans h.version, h'.structs.trans h.structs, h'.initvals.trans h.initvals⟩

theorem Container.Beside.alike {a b : Container} (h : a.Beside b) : a.Alike b :=
  ⟨h.version, by rw [h.structs]⟩

theorem VarDecl.allotGlobal_eq_ok {d d' : VarDecl} {s s' : Session}
    (h : d.allotGlobal s = ⟨d', s', .ok ()⟩) :
    (∃ slot, d' = { d with slot }) ∧ s.container.Beside s'.container := by
  unfold VarDecl.allotGlobal at h
  split at h
  next =>
    obtain ⟨rfl, rfl, _⟩ := Step.done_eq_ok.mp h
    exact ⟨⟨d.slot, by cases d; rfl⟩, rfl, rfl, rfl⟩
  next =>
    split at h
    next => simp at h
    next =>
      split at h
      next => simp at h
      next =>
        obtain ⟨rfl, rfl, _⟩ := Step.done_eq_ok.mp h
        exact ⟨⟨_, rfl⟩, rfl, rfl, rfl⟩

theorem FuncHead.allot_shape {h : FuncHead} {body : Block} {p : FuncHead × Block} {s s' : Session}
    (hs : h.allot body s = ⟨p, s', .ok ()⟩) :
    (∃ number, p.1 = { h with params := VarDecl.numberFrom 0 h.params, number }) ∧
      (∀ d ∈ h.params, d.name.isSome = true) ∧ (∀ q ∈ body.parts, q.isHead = false) ∧
      p.2.parts = Part.numberFrom h.params.length body.parts ∧
      s.container.Beside s'.container := by
  obtain ⟨_, result, params, vars, body', all, _, hparams, hbody, rfl, rfl⟩ := FuncHead.allot_eq_ok hs
  obtain ⟨hnamed, rfl, hlength⟩ := VarDecl.allotParams_eq_ok hparams
  obtain ⟨hflat, hparts⟩ := Block.allotLocals_eq_ok hbody
  rw [hlength, List.length_nil, Nat.zero_add] at hparts
  exact ⟨⟨_, rfl⟩, hnamed, hflat, hparts, rfl, rfl, rfl⟩

/-- What settling types makes of a top-level item. -/
inductive Item.Settled (c : Container) : Item → Item → Prop
  | var {d d' : VarDecl} : Part.Settled c (.var d) (.var d') → Settled c (.var d) (.var d')
  | func {h h' : FuncHead} {body body' : Block} :
      Part.Settled c (.head h) (.head h') →
      List.Forall₂ (Part.Settled c) body.parts body'.parts →
      Settled c (.func h body) (.func h' body')

/-- A declaration is settled if all its parts are. -/
theorem Item.settled_of_parts {i i' : Item} (hi : i.isDeclaration = true)
    (hi' : i'.isDeclaration = true) (h : List.Forall₂ (Part.Settled c) i.parts i'.parts) :
    i.Settled c i' := by
  cases i with
  | stmt => cases hi
  | var d =>
      cases i' with
      | stmt => cases hi'
      | func => cases h with | cons hhead _ => cases hhead.1
      | var d' => exact .var (List.forall₂_cons.mp h).1
  | func head body =>
      cases i' with
      | stmt => cases hi'
      | var => cases h with | cons hhead _ => cases hhead.1
      | func head' body' =>
          obtain ⟨hhead, hrest⟩ := List.forall₂_cons.mp h
          have hrest : List.Forall₂ (Part.Settled c) (body.parts ++ [.leave]) (body'.parts ++ [.leave]) :=
            hrest
          exact .func hhead (forall₂_append (by simpa using hrest.length_eq) hrest).1

/-- Whether there are functions among parts is not changed by settling them. -/
theorem Part.Settled.isHead {ps ps' : List Part} (h : List.Forall₂ (Part.Settled c) ps ps') :
    (∀ p ∈ ps, p.isHead = false) ↔ ∀ p ∈ ps', p.isHead = false := by
  have hheads : ∀ ps : List Part, (∀ p ∈ ps, p.isHead = false) ↔
      ∀ p ∈ ps.map Part.bare, p.isHead = false := by
    intro ps
    rw [List.forall_mem_map]
    exact forall₂_congr fun p _ => by cases p <;> rfl
  rw [hheads, hheads ps', Part.Settled.bare h]

/-- An item that is settled and then numbered has become what it should. -/
theorem Item.becomes_allot {i i₁ i₂ : Item} {s s' : Session} (hsettled : i.Settled c i₁)
    (h : i₁.allot s = ⟨i₂, s', .ok ()⟩) : i.Becomes c i₂ ∧ s.container.Beside s'.container := by
  cases hsettled with
  | var hd =>
      obtain ⟨d₂, hd₂, rfl⟩ := Step.map_eq_ok.mp h
      obtain ⟨⟨slot, rfl⟩, hbeside⟩ := VarDecl.allotGlobal_eq_ok hd₂
      exact ⟨.var (hd.becomes slot), hbeside⟩
  | @func head head₁ body body₁ hhead hbody =>
      unfold Item.allot at h
      obtain ⟨p, hp, rfl⟩ := Step.map_eq_ok.mp h
      obtain ⟨⟨number, hp₁⟩, hnamed, hflat, hparts, hbeside⟩ := FuncHead.allot_shape hp
      obtain ⟨hname, hspan, hresult, hparams⟩ := hhead.head
      refine ⟨.func ?_, hbeside⟩
      rw [hp₁]
      refine ⟨hname, hspan, hresult, ?_, VarDecl.becomes_numberFrom hparams 0,
        (Part.Settled.isHead hbody).mpr hflat, ?_, ?_⟩
      · intro d hd
        obtain ⟨d₁, hd₁, hbecomes⟩ := exists_of_forall₂ hparams.flip hd
        rw [← (hbecomes none).name]
        exact hnamed d₁ hd₁
      · rw [← Block.variables_parts, ← Block.variables_parts, hparts, Part.variables_numberFrom]
        exact VarDecl.becomes_numberFrom (Part.Settled.variables hbody) _
      · rw [hparts, Part.bare_numberFrom, Part.Settled.bare hbody, hparams.length_eq]

theorem Item.becomes_allotAll {is is₁ is₂ : List Item} {s s' : Session}
    (hsettled : List.Forall₂ (Item.Settled c) is is₁)
    (h : Item.allotAll is₁ s = ⟨is₂, s', .ok ()⟩) :
    List.Forall₂ (Item.Becomes c) is is₂ ∧ s.container.Beside s'.container := by
  induction hsettled generalizing is₂ s with
  | nil =>
      obtain ⟨rfl, rfl, _⟩ := Step.done_eq_ok.mp h
      exact ⟨.nil, rfl, rfl, rfl⟩
  | cons hi _ ih =>
      obtain ⟨i₂, u, _, hi₂, h⟩ := Step.andThen_eq_ok.mp h
      obtain ⟨rest, hrest, rfl⟩ := Step.map_eq_ok.mp h
      obtain ⟨hfirst, hbeside⟩ := Item.becomes_allot hi hi₂
      obtain ⟨hothers, hbeside'⟩ := ih hrest
      exact ⟨.cons hfirst hothers, hbeside.trans hbeside'⟩

/-! ## Whole programs -/

/-- A program as the parser leaves it, with no numbers in it yet. -/
structure Block.Fresh (b : Block) : Prop where
  written : ∀ i ∈ b.declarations, i.Written
  declares : ∀ i ∈ b.items, i.isDeclaration = true

theorem Block.fresh_of_parse {source : String} {b : Block} (h : Block.parse source = .ok b) :
    b.Fresh := ⟨Block.written_of_parse h, (Block.isScript_of_parse h).declares⟩

theorem Block.Fresh.isScript {b : Block} (h : b.Fresh) : b.IsScript :=
  ⟨List.flatMap_eq_nil_iff.mpr fun i hi => (h.written i hi).strays, h.declares⟩

section Prepared

variable {version : Nat} {b b₁ b₂ : Block} {s₁ s₂ : Session} {e : LogEvent}

/-- **What the first pass makes of a program**, item by item. -/
theorem Block.Fresh.settled (hb : b.Fresh) {s : Session} (htypes : b.bindTypes s = ⟨b₁, s₁, .ok ()⟩)
    {c : Container} (hc : s₁.container.Alike c) :
    List.Forall₂ (Item.Settled c) b.items b₁.items := by
  obtain ⟨hscript, _⟩ := Block.isScript_bindTypes htypes hb.isScript
  have hparts := Block.settled_bindTypes hb.written htypes
  -- the items of both trees are declarations
  have hdeclares := (List.forall₂_and_left _ _).mpr ⟨hb.declares, hparts⟩
  have hdeclares' := ((List.forall₂_and_left _ _).mpr ⟨hscript.declares, hdeclares.flip⟩).flip
  refine hdeclares'.imp fun i i' hi => ?_
  refine Item.settled_of_parts hi.2.1 hi.1 (hi.2.2.imp fun p p' hp => ⟨hp.1, ?_⟩)
  exact hp.2.imp fun t t' ht => hc.resolves ht

/-- **What the first two passes make of a program**, item by item. -/
theorem Block.Fresh.becomes (hb : b.Fresh)
    (htypes : b.bindTypes (.ofContainer (.empty version)) = ⟨b₁, s₁, .ok ()⟩)
    (hdecls : b₁.allot (s₁.note e) = ⟨b₂, s₂, .ok ()⟩) :
    List.Forall₂ (Item.Becomes s₂.container) b.items b₂.items ∧
      s₁.container.Beside s₂.container := by
  obtain ⟨items₂, hitems, rfl⟩ := Step.map_eq_ok.mp hdecls
  have hbeside := (Item.becomes_allotAll (hb.settled htypes (.refl _)) hitems).2
  -- the structs are the same, so types are resolved by the last tables too
  exact ⟨(Item.becomes_allotAll (hb.settled htypes hbeside.alike) hitems).1, hbeside⟩

/-- The tables are well-formed after the first two passes. -/
theorem Block.Fresh.wellFormed (hb : b.Fresh)
    (htypes : b.bindTypes (.ofContainer (.empty version)) = ⟨b₁, s₁, .ok ()⟩)
    (hdecls : b₁.allot (s₁.note e) = ⟨b₂, s₂, .ok ()⟩) : s₂.container.WellFormed := by
  have htypesEnd := Block.bindTypes_appends hb.written (.ofContainer (.empty version))
  rw [htypes] at htypesEnd
  obtain ⟨happends, hcoded⟩ := htypesEnd.ok () rfl
  have hdeclsEnd := Block.allot_ends (s := s₁.note e) hcoded
  rw [hdecls] at hdeclsEnd
  have hfirst := happends.reaches.wellFormed (Container.wellFormed_empty version)
  exact (hdeclsEnd.ok () rfl).reaches.wellFormed hfirst

end Prepared

theorem Item.Becomes.variables {is is' : List Item} (h : List.Forall₂ (Item.Becomes c) is is') :
    List.Forall₂ (VarDecl.Becomes c) (Item.variables is) (Item.variables is') := by
  induction h with
  | nil => exact .nil
  | cons hi _ ih =>
      cases hi with
      | @var d d' hd =>
          cases hname : d.name with
          | none =>
              rw [Item.variables_unnamed hname, Item.variables_unnamed (hd.name.trans hname)]
              exact ih
          | some name =>
              have hsome : d.name.isSome = true := by rw [hname]; rfl
              rw [Item.variables_named hsome, Item.variables_named (hd.name ▸ hsome)]
              exact .cons hd ih
      | func => exact ih

theorem Item.Becomes.functions {is is' : List Item} (h : List.Forall₂ (Item.Becomes c) is is') :
    List.Forall₂ (fun p p' => FuncHead.Becomes c p.1 p.2 p'.1 p'.2) (Item.functions is)
      (Item.functions is') := by
  induction h with
  | nil => exact .nil
  | cons hi _ ih =>
      cases hi with
      | var => exact ih
      | func hf => exact .cons hf ih

/-! ## The tables and the text -/

section Fills

variable {α β : Type} {number : α → Option Nat} {describes : β → α → Prop}

/-- Numbers go up from the length of the table. -/
theorem Fills.numbers {old new : List β} {as : List α} (h : Fills number describes old as new) :
    as.map number = (List.range' old.length as.length).map some :=
  map_eq_of_forall₂ (fun _ _ hn => hn.1) h.forall₂

/-- What fills a table that was empty carries the positions in it. -/
theorem Fills.positions {new : List β} {as : List α} (h : Fills number describes [] as new) :
    as.map number = (List.range new.length).map some := by
  rw [h.numbers, h.length_eq, List.length_nil, Nat.zero_add, List.range_eq_range']

/-- The entries of a table that was empty describe what was entered, one by one. -/
theorem Fills.added_describe {old new : List β} {as : List α} (h : Fills number describes old as new) :
    ∃ added, new = old ++ added ∧ List.Forall₂ describes added as := by
  induction h with
  | nil => exact ⟨[], by simp, .nil⟩
  | @cons old new a as b _ hb _ ih =>
      obtain ⟨added, rfl, hadded⟩ := ih
      exact ⟨b :: added, by simp, .cons hb hadded⟩

theorem Fills.forall₂_describes {new : List β} {as : List α} (h : Fills number describes [] as new) :
    List.Forall₂ describes new as := by
  obtain ⟨added, rfl, hadded⟩ := h.added_describe
  exact hadded

end Fills

/--
A table lists declarations: those of the text, what they have become, and the records of the table stand
in the same order. Each of the declarations carries its position, which makes the slots the numbers below
the length of the table, each of them once.
-/
structure VarDecl.Listed (c : Container) (ds ds' : List VarDecl) (vs : List Variable) : Prop where
  becomes : List.Forall₂ (VarDecl.Becomes c) ds ds'
  slots : ds'.map VarDecl.slot = (List.range vs.length).map some
  records : List.Forall₂ (fun d v => d.record? c = some v) ds vs
  codes : List.Forall₂ (fun d' v => d'.type.encode = .ok v.type) ds' vs

/-- The entry of a function and what has become of the function, by its text. -/
structure FuncHead.Listed (c : Container) (n : Nat) (p p' : FuncHead × Block) (f : Function) : Prop where
  number : p'.1.number = some n
  name : p'.1.name = p.1.name ∧ f.name = p.1.name
  result : p.1.result.code? c = some f.result ∧ p'.1.result.encode = .ok f.result
  argCount : f.argCount = p.1.params.length
  vars : VarDecl.Listed c (p.1.params ++ Item.variables p.2.declarations)
    (p'.1.params ++ Item.variables p'.2.declarations) f.vars

/-- A record that describes what has become of a variable is the record of the variable. -/
theorem Variable.Describes.record? {v : Variable} {d d' : VarDecl} (h : v.Describes d')
    (hd : d.Becomes c d') {size : Nat} (hv : v.Within c.version size) : d.record? c = some v := by
  obtain ⟨hname, hcode⟩ := h
  rw [hd.name] at hname
  obtain ⟨code, hcode', hencode⟩ := (hd.type (by rw [hname]; rfl)).encode
  rw [hcode] at hencode
  cases hencode
  obtain ⟨name, secondName, type⟩ := v
  obtain rfl : secondName = _ := hv.secondName
  simp [VarDecl.record?, hname, hcode', Container.newVariable, Container.hasSecondNames]

theorem Fills.listed {ds ds' : List VarDecl} {vs : List Variable} {size : Nat}
    (h : Fills VarDecl.slot Variable.Describes [] ds' vs)
    (hds : List.Forall₂ (VarDecl.Becomes c) ds ds') (hvs : ∀ v ∈ vs, v.Within c.version size) :
    VarDecl.Listed c ds ds' vs := by
  have hdescribes := h.forall₂_describes
  refine ⟨hds, h.positions, ?_, hdescribes.flip.imp fun d' v hd' => hd'.2⟩
  refine forall₂_comp ?_ hds ((List.forall₂_and_left _ _).mpr ⟨hvs, hdescribes⟩).flip
  intro d d' v hd hv
  exact hv.2.record? hd hv.1

section Listed

variable {version : Nat} {b b₁ b₂ : Block} {s₁ s₂ : Session} {e : LogEvent}

theorem Block.Fresh.globals_listed (hb : b.Fresh)
    (htypes : b.bindTypes (.ofContainer (.empty version)) = ⟨b₁, s₁, .ok ()⟩)
    (hdecls : b₁.allot (s₁.note e) = ⟨b₂, s₂, .ok ()⟩) :
    VarDecl.Listed s₂.container (Item.variables b.items) (Item.variables b₂.items)
      s₂.container.globals := by
  have hentered := hb.isScript.entered htypes hdecls
  have hvariables := Item.Becomes.variables (hb.becomes htypes hdecls).1
  exact hentered.globals.listed hvariables (hb.wellFormed htypes hdecls).globals

/-- The functions of the text, what they have become and their entries are equally many. -/
theorem Block.Fresh.functions_length (hb : b.Fresh)
    (htypes : b.bindTypes (.ofContainer (.empty version)) = ⟨b₁, s₁, .ok ()⟩)
    (hdecls : b₁.allot (s₁.note e) = ⟨b₂, s₂, .ok ()⟩) :
    (Item.functions b.items).length = s₂.container.functions.length ∧
      (Item.functions b₂.items).length = s₂.container.functions.length := by
  have hentered := hb.isScript.entered htypes hdecls
  have hfunctions := Item.Becomes.functions (hb.becomes htypes hdecls).1
  have hlength : (Item.functions b₂.items).length = s₂.container.functions.length := by
    rw [hentered.functions.length_eq, List.length_nil, Nat.zero_add]
  exact ⟨hfunctions.length_eq.trans hlength, hlength⟩

theorem Block.Fresh.functions_listed (hb : b.Fresh)
    (htypes : b.bindTypes (.ofContainer (.empty version)) = ⟨b₁, s₁, .ok ()⟩)
    (hdecls : b₁.allot (s₁.note e) = ⟨b₂, s₂, .ok ()⟩) {n : Nat} {p p' : FuncHead × Block}
    {f : Function} (hp : (Item.functions b.items)[n]? = some p)
    (hp' : (Item.functions b₂.items)[n]? = some p') (hf : s₂.container.functions[n]? = some f) :
    FuncHead.Listed s₂.container n p p' f := by
  have hentered := hb.isScript.entered htypes hdecls
  have hwell := hb.wellFormed htypes hdecls
  have hfunctions := Item.Becomes.functions (hb.becomes htypes hdecls).1
  obtain ⟨hn, rfl⟩ := List.getElem?_eq_some_iff.mp hp
  obtain ⟨hn', rfl⟩ := List.getElem?_eq_some_iff.mp hp'
  obtain ⟨hnf, rfl⟩ := List.getElem?_eq_some_iff.mp hf
  -- the three lists go in step
  have hbecomes := hfunctions.get hn hn'
  have hdescribes := hentered.functions.forall₂_describes.get hnf hn'
  have hnumber := congrArg (·[n]?) hentered.functions.numbers
  simp only [List.get_eq_getElem] at hbecomes hdescribes
  obtain ⟨code, hcode, hencode⟩ := hbecomes.result.encode
  have hresult : code = s₂.container.functions[n].result := by
    have := hencode.symm.trans hdescribes.result
    cases this
    rfl
  subst hresult
  refine ⟨?_, ⟨hbecomes.name, hdescribes.name.trans hbecomes.name⟩, ⟨hcode, hencode⟩, ?_, ?_⟩
  · simpa [hn'] using hnumber
  · rw [hdescribes.argCount, hbecomes.params.length_eq]
  · exact hdescribes.vars.listed (List.rel_append hbecomes.params hbecomes.locals)
      (hwell.functions _ (List.getElem_mem hnf)).vars

end Listed

/--
**The tables list the declarations of the text.** After the first two passes, the global table lists the
named variables at the top level, and the function table the functions. The variables of a function are its
parameters and then all named variables of its body, at any depth. All of them stand in the order of the
text and carry their positions, and each entry has the name and the type that is written.
-/
theorem Block.tables_list_declarations {source : String} {version : Nat} {b b₁ b₂ : Block}
    {s₁ s₂ : Session} {e : LogEvent} (hparse : Block.parse source = .ok b)
    (htypes : b.bindTypes (.ofContainer (.empty version)) = ⟨b₁, s₁, .ok ()⟩)
    (hdecls : b₁.allot (s₁.note e) = ⟨b₂, s₂, .ok ()⟩) :
    VarDecl.Listed s₂.container (Item.variables b.items) (Item.variables b₂.items)
        s₂.container.globals ∧
      (Item.functions b.items).length = s₂.container.functions.length ∧
      (Item.functions b₂.items).length = s₂.container.functions.length ∧
      ∀ n p p' f, (Item.functions b.items)[n]? = some p → (Item.functions b₂.items)[n]? = some p' →
        s₂.container.functions[n]? = some f → FuncHead.Listed s₂.container n p p' f := by
  have hfresh := Block.fresh_of_parse hparse
  obtain ⟨hlength, hlength'⟩ := hfresh.functions_length htypes hdecls
  refine ⟨hfresh.globals_listed htypes hdecls, hlength, hlength', ?_⟩
  intro n p p' f hp hp' hf
  exact hfresh.functions_listed htypes hdecls hp hp' hf

/-- A program that declares variables in statements of all kinds. -/
def scattered : String :=
  "void f(int a) \x7b
  for (int b;;) if (a) \x7b struct T c; \x7d else while (a) \x7b int d; \x7d
  switch (a) \x7b case 1: do \x7b int e; \x7d while (a); default: l: \x7b int i; \x7d \x7d
\x7d
int g;
struct T \x7b int x; \x7d f, h;
int k() \x7b string m; \x7d"

/-- The functions of that program, with the variables of each. -/
def scatteredFunctions : List Function :=
  [⟨"f", .scalar .void, 1, [⟨"a", none, .scalar .int⟩, ⟨"b", none, .scalar .int⟩,
      ⟨"c", none, .struct 0⟩, ⟨"d", none, .scalar .int⟩, ⟨"e", none, .scalar .int⟩,
      ⟨"i", none, .scalar .int⟩]⟩,
    ⟨"k", .scalar .int, 0, [⟨"m", none, .scalar .string⟩]⟩]

set_option maxRecDepth 100000 in
theorem Block.tables_list_declarations_scattered :
    ∃ b b₁ b₂ s₁ s₂, Block.parse scattered = .ok b ∧
      b.bindTypes (.ofContainer (.empty 0)) = ⟨b₁, s₁, .ok ()⟩ ∧
      b₁.allot (s₁.note (.typesDone 1)) = ⟨b₂, s₂, .ok ()⟩ ∧
      s₂.container.functions = scatteredFunctions ∧
      s₂.container.globals.map (·.name) = ["g", "f", "h"] ∧
      VarDecl.Listed s₂.container (Item.variables b.items) (Item.variables b₂.items)
        s₂.container.globals ∧
      ∀ n p p' f, (Item.functions b.items)[n]? = some p → (Item.functions b₂.items)[n]? = some p' →
        s₂.container.functions[n]? = some f → FuncHead.Listed s₂.container n p p' f := by
  obtain ⟨b, hparse, hrun⟩ := Block.exists_of_chars scattered (fun b =>
      let r₁ := b.bindTypes (.ofContainer (.empty 0))
      let r₂ := r₁.tree.allot (r₁.state.note (.typesDone 1))
      r₁.result.isOk && (r₂.result.isOk && (r₂.state.container.functions = scatteredFunctions &&
        r₂.state.container.globals.map (·.name) = ["g", "f", "h"]))) rfl (by decide +kernel)
  obtain ⟨hok₁, hrest⟩ := Bool.and_eq_true_iff.mp hrun
  obtain ⟨hok₂, hrest⟩ := Bool.and_eq_true_iff.mp hrest
  obtain ⟨hfunctions, hglobals⟩ := Bool.and_eq_true_iff.mp hrest
  have htypes := Step.eq_of_isOk hok₁
  have hdecls := Step.eq_of_isOk hok₂
  have htables := Block.tables_list_declarations hparse htypes hdecls
  exact ⟨b, _, _, _, _, hparse, htypes, hdecls, of_decide_eq_true hfunctions,
    of_decide_eq_true hglobals, htables.1, htables.2.2.2⟩

end Jaf
