import Jaf.Proofs.Analysis.ResolvedTrees

/-!
# When the first two passes succeed, and where they stop

The passes go through a program in the order of the text and stop at the first thing that is wrong. What
can be wrong does not depend on that order: a struct without a name or a name that is given twice
(`TypeSpec.Enterable`), a type that is unknown (`TypeSpec.Known`), a name that is declared twice, a
parameter without a name or a function inside of another (`Item.Enterable`). A program where nothing of
this is wrong is `Block.Consistent`, and the first two passes succeed exactly on these programs.

That a pass has found nothing wrong is known from the tables it leaves. The converse needs no look at the
passes at all: it is known exactly how they fail, every failure is about something that is wrong, and so
there is no failure where nothing is.

Where they stop depends on the order. Settling types goes through the program twice, first for the
definitions and then for all types, so a bad definition comes before any type that is unknown
(`Block.bindTypes_result`). Handing out numbers stops at the first top-level item with a flaw, and leaves the
tables as they are after the items before it (`Block.allot_result`).
-/

namespace Jaf

/-! ## Steps that fail only where something is wrong -/

section Decides

variable {σ τ : Type} {r : Step σ τ Unit} {A : Prop} {E : SemanticError → σ → Prop}

/-- A step that succeeds only if `A` holds and fails only if it does not tells whether `A` holds. -/
theorem Step.Ends.ok_iff (h : r.Ends (fun _ _ _ => A) E) (hE : ∀ e s, E e s → ¬A) :
    r.result = .ok () ↔ A := by
  cases hr : r.result with
  | ok u => exact iff_of_true rfl (h.ok u hr)
  | error e => exact iff_of_false (fun he => by cases he) (hE _ _ (h.error e hr))

theorem Step.Ends.error_of_not (h : r.Ends (fun _ _ _ => A) E) (hA : ¬A) :
    ∃ e, r.result = .error e ∧ E e r.state := by
  cases hr : r.result with
  | ok u => exact absurd (h.ok u hr) hA
  | error e => exact ⟨e, rfl, h.error e hr⟩

end Decides

/-- If all have names, then listing names and leaving out what has none comes to the same. -/
theorem map_eq_map_some {α β : Type} {f : α → Option β} {as : List α}
    (h : ∀ a ∈ as, (f a).isSome = true) : as.map f = (as.filterMap f).map some := by
  induction as with
  | nil => rfl
  | cons a as ih =>
      obtain ⟨ha, has⟩ := List.forall_mem_cons.mp h
      obtain ⟨b, hb⟩ := Option.isSome_iff_exists.mp ha
      rw [List.map_cons, List.filterMap_cons_some hb, List.map_cons, hb, ih has]

/-! ## Settling types -/

namespace TypeSpec

/-- Definitions that can be entered: each has a name, and no name is given twice. -/
@[mk_iff] structure Enterable (ds : List TypeSpec) : Prop where
  named : ∀ d ∈ ds, d.name.isSome = true
  names : (ds.map (·.name)).Nodup

instance (ds : List TypeSpec) : Decidable (Enterable ds) := decidable_of_iff' _ (enterable_iff ds)

/-- Types that are known where the definitions `ds` are: a name is one of theirs, and there is no enum. -/
structure Known (ds ts : List TypeSpec) : Prop where
  names : ∀ t ∈ ts, t.kind = .typedef → t.name ∈ ds.map (·.name)
  enums : ∀ t ∈ ts, t.kind ≠ .enum

/-- Why the first definition that cannot be entered is refused. -/
def FirstRefusal (ds : List TypeSpec) (e : SemanticError) : Prop :=
  ∃ us d vs, ds = us ++ d :: vs ∧ Enterable us ∧ d.refusal? (us.filterMap (·.name)) = some e

/-- Among definitions that can be entered none is refused. -/
theorem Enterable.refusal?_eq_none {us vs : List TypeSpec} {d : TypeSpec}
    (h : Enterable (us ++ d :: vs)) : d.refusal? (us.filterMap (·.name)) = none := by
  obtain ⟨name, hname⟩ := Option.isSome_iff_exists.mp (h.named d (by simp))
  have hnames := h.names
  rw [List.map_append, List.map_cons, hname] at hnames
  unfold refusal?
  rw [hname]
  refine if_neg fun htaken => ?_
  obtain ⟨u, hu, hname'⟩ := List.mem_filterMap.mp htaken
  refine (List.nodup_append.mp hnames).2.2 _ ?_ _ List.mem_cons_self rfl
  exact List.mem_map.mpr ⟨u, hu, hname'⟩

theorem FirstRefusal.not_enterable {ds : List TypeSpec} {e : SemanticError} (h : FirstRefusal ds e) :
    ¬Enterable ds := by
  obtain ⟨us, d, vs, rfl, _, hd⟩ := h
  intro hds
  rw [hds.refusal?_eq_none] at hd
  cases hd

/-- Types are known if nothing is wrong with any of them. -/
theorem Enterable.known_iff {ds : List TypeSpec} (hds : Enterable ds) {ts : List TypeSpec} :
    Known ds ts ↔ ∀ t ∈ ts, t.complaint? (ds.filterMap (·.name)) = none := by
  have hnames := map_eq_map_some hds.named
  constructor
  · intro h t ht
    unfold complaint?
    split
    next hkind => exact absurd hkind (h.enums t ht)
    next hkind => exact if_pos (hnames ▸ h.names t ht hkind)
    next => rfl
  · intro h
    refine ⟨fun t ht hkind => ?_, fun t ht hkind => ?_⟩
    · have hnone := h t ht
      simp only [complaint?, hkind] at hnone
      rw [hnames]
      exact Decidable.byContradiction fun hunknown => by rw [if_neg hunknown] at hnone; cases hnone
    · have hnone := h t ht
      simp only [complaint?, hkind] at hnone
      cases hnone

theorem FirstComplaint.not_known {ds ts : List TypeSpec} {e : SemanticError}
    (h : FirstComplaint (ds.filterMap (·.name)) ts e) (hds : Enterable ds) : ¬Known ds ts := by
  obtain ⟨us, t, vs, rfl, _, ht⟩ := h
  intro hknown
  rw [hds.known_iff.mp hknown t (by simp)] at ht
  cases ht

end TypeSpec

section Types

variable {version : Nat} {b : Block}

/-- The definitions that a new table holds can be entered, and their names are those of the table. -/
theorem Session.Registers.enterable {ds : List TypeSpec} {s₁ : Session}
    (h : (Session.ofContainer (.empty version)).Registers ds s₁) :
    TypeSpec.Enterable ds ∧ s₁.container.structs.map (·.name) = ds.filterMap (·.name) := by
  have hnamed : ∀ d ∈ ds, d.name.isSome = true := by
    intro d hd
    rw [h.name_eq d hd]
    rfl
  have hnames := h.names_eq
  refine ⟨⟨hnamed, ?_⟩, ?_⟩
  · rw [← hnames]
    exact (h.nodup List.nodup_nil).map (Option.some_injective _)
  · rw [map_eq_map_some hnamed] at hnames
    exact List.map_injective_iff.mpr (Option.some_injective _) hnames

/-- **How settling the types of a program ends** in a new container. -/
theorem Block.Fresh.bindTypes_ends (hb : b.Fresh) (version : Nat) :
    (b.bindTypes (.ofContainer (.empty version))).Ends
      (fun _ _ _ => TypeSpec.Enterable b.definitions ∧ TypeSpec.Known b.definitions b.specs)
      fun e _ => TypeSpec.FirstRefusal b.definitions e ∨ TypeSpec.Enterable b.definitions ∧
        TypeSpec.FirstComplaint (b.definitions.filterMap (·.name)) b.specs e := by
  refine (Block.bindTypes_ends hb.written _).mono ?_ ?_
  · rintro b' _ s' ⟨s₁, hregisters, _, hspecs⟩
    obtain ⟨hdefinitions, hnames⟩ := hregisters.enterable
    have hresolves := List.rel_flatMap hspecs fun _ _ h => h
    refine ⟨hdefinitions, hdefinitions.known_iff.mpr ?_⟩
    rw [← hnames]
    exact TypeSpec.complaint?_of_resolves hresolves
  · rintro e s' (⟨us, d, vs, hcut, hregisters, hd⟩ | ⟨s₁, hregisters, hcomplaint, _⟩)
    · obtain ⟨hus, hnames⟩ := hregisters.enterable
      exact .inl ⟨us, d, vs, hcut, hus, hnames ▸ hd⟩
    · obtain ⟨hdefinitions, hnames⟩ := hregisters.enterable
      exact .inr ⟨hdefinitions, hnames ▸ hcomplaint⟩

theorem Block.Fresh.bindTypes_ok_iff (hb : b.Fresh) (version : Nat) :
    (b.bindTypes (.ofContainer (.empty version))).result = .ok () ↔
      TypeSpec.Enterable b.definitions ∧ TypeSpec.Known b.definitions b.specs := by
  refine (hb.bindTypes_ends version).ok_iff ?_
  rintro e _ (hrefusal | ⟨hdefinitions, hcomplaint⟩) ⟨hdefinitions', hknown⟩
  · exact hrefusal.not_enterable hdefinitions'
  · exact hcomplaint.not_known hdefinitions hknown

end Types

/--
**When settling types succeeds, and where it stops.** In a new container it succeeds exactly if all struct
definitions at any depth have different names and all types are known. A definition without a name or with
a name that was given before is what it stops at, whatever else is wrong before it. If there is no such
definition, it stops at the first type that is unknown.
-/
theorem Block.bindTypes_result {source : String} {b : Block} (hparse : Block.parse source = .ok b)
    (version : Nat) :
    ((b.bindTypes (.ofContainer (.empty version))).result = .ok () ↔
        TypeSpec.Enterable b.definitions ∧ TypeSpec.Known b.definitions b.specs) ∧
      (¬TypeSpec.Enterable b.definitions →
        ∃ e, (b.bindTypes (.ofContainer (.empty version))).result = .error e ∧
          TypeSpec.FirstRefusal b.definitions e) ∧
      (TypeSpec.Enterable b.definitions → ¬TypeSpec.Known b.definitions b.specs →
        ∃ e, (b.bindTypes (.ofContainer (.empty version))).result = .error e ∧
          TypeSpec.FirstComplaint (b.definitions.filterMap (·.name)) b.specs e) := by
  have hfresh := Block.fresh_of_parse hparse
  have hends := hfresh.bindTypes_ends version
  refine ⟨hfresh.bindTypes_ok_iff version, fun hrefused => ?_, fun hdefinitions hunknown => ?_⟩
  · obtain ⟨e, he, hfirst | ⟨hdefinitions, _⟩⟩ := hends.error_of_not fun h => hrefused h.1
    · exact ⟨e, he, hfirst⟩
    · exact absurd hdefinitions hrefused
  · obtain ⟨e, he, hrefusal | ⟨_, hfirst⟩⟩ := hends.error_of_not fun h => hunknown h.2
    · exact absurd hdefinitions hrefusal.not_enterable
    · exact ⟨e, he, hfirst⟩

/-- A program with an unknown type, an enum, and a struct that is defined inside of one with its name. -/
def mistyped : String :=
  "struct Missing a;
enum E b;
struct T \x7b struct U \x7b struct T \x7b int x; \x7d y; \x7d z; \x7d w;"

/-- The complaint about the inner struct of that program. -/
def mistypedError : SemanticError := ⟨⟨50, 69⟩, .structRedefined "T"⟩

set_option maxRecDepth 100000 in
theorem Block.bindTypes_result_mistyped :
    ∃ b, Block.parse mistyped = .ok b ∧
      b.specs.map (·.kind) = [.typedef, .enum, .struct, .struct, .struct, .int] ∧
      ¬TypeSpec.Enterable b.definitions ∧
      (b.bindTypes (.ofContainer (.empty 0))).result = .error mistypedError ∧
      TypeSpec.FirstRefusal b.definitions mistypedError := by
  obtain ⟨b, hparse, hrun⟩ := Block.exists_of_chars mistyped (fun b =>
      (b.bindTypes (.ofContainer (.empty 0))).result = .error mistypedError &&
        (b.specs.map (·.kind) = [.typedef, .enum, .struct, .struct, .struct, .int] &&
          ¬TypeSpec.Enterable b.definitions)) rfl (by decide +kernel)
  obtain ⟨herror, hrest⟩ := Bool.and_eq_true_iff.mp hrun
  obtain ⟨hkinds, hrefused⟩ := Bool.and_eq_true_iff.mp hrest
  have herror := of_decide_eq_true herror
  have hrefused := of_decide_eq_true hrefused
  obtain ⟨e, he, hfirst⟩ := (Block.bindTypes_result hparse 0).2.1 hrefused
  obtain rfl : e = mistypedError := Except.error.inj (he.symm.trans herror)
  exact ⟨b, hparse, of_decide_eq_true hkinds, hrefused, herror, hfirst⟩

/-! ## Handing out numbers -/

/--
Items that can be entered: no function name and no variable name is given twice, all parameters have
names, and no function stands inside of another, at any depth.
-/
@[mk_iff] structure Item.Enterable (is : List Item) : Prop where
  functionNames : ((Item.functions is).map (·.1.name)).Nodup
  globalNames : ((Item.variables is).map (·.name)).Nodup
  params : ∀ p ∈ Item.functions is, ∀ d ∈ p.1.params, d.name.isSome = true
  flat : ∀ p ∈ Item.functions is, Item.functions p.2.declarations = []

instance (is : List Item) : Decidable (Item.Enterable is) := decidable_of_iff' _ (Item.enterable_iff is)

/-- What is wrong with a top-level item behind the items `js`, if anything is. -/
def Item.flawAfter? (js : List Item) (i : Item) : Option SemanticError :=
  i.flaw? ((Item.functions js).map (·.1.name)) ((Item.variables js).filterMap (·.name))

theorem Item.named_variables {is : List Item} : ∀ d ∈ Item.variables is, d.name.isSome = true :=
  fun _ hd => (Item.mem_variables.mp hd).2

/-- Among items that can be entered none has a flaw. -/
theorem Item.Enterable.flawAfter?_eq_none {js ks : List Item} {i : Item}
    (h : Item.Enterable (js ++ i :: ks)) : i.flawAfter? js = none := by
  cases i with
  | stmt x => rfl
  | var d =>
      have hnames := h.globalNames
      unfold Item.flawAfter? Item.flaw?
      dsimp only
      cases hname : d.name with
      | none => rfl
      | some name =>
          rw [Item.variables_append, Item.variables_named (by rw [hname]; rfl), List.map_append,
            List.map_cons, hname, map_eq_map_some Item.named_variables] at hnames
          refine if_neg fun htaken => ?_
          exact (List.nodup_append.mp hnames).2.2 _ (List.mem_map_of_mem htaken) _ List.mem_cons_self rfl
  | func head body =>
      have hmem : (head, body) ∈ Item.functions (js ++ .func head body :: ks) :=
        List.mem_filterMap.mpr ⟨.func head body, by simp, rfl⟩
      have hnames : ((Item.functions js).map (·.1.name) ++
          head.name :: (Item.functions ks).map (·.1.name)).Nodup := by
        have := h.functionNames
        rwa [Item.functions_append, List.map_append] at this
      have hnew : head.name ∉ (Item.functions js).map (·.1.name) :=
        fun htaken => (List.nodup_append.mp hnames).2.2 _ htaken _ List.mem_cons_self rfl
      have hparams : head.params.find? (·.name.isNone) = none := by
        refine List.find?_eq_none.mpr fun d hd => ?_
        simpa [Option.isSome_iff_ne_none] using h.params _ hmem d hd
      have hflat : Item.functions body.declarations = [] := h.flat _ hmem
      unfold Item.flawAfter? Item.flaw?
      simp only [if_neg hnew, FuncHead.flaw?, hparams, hflat, List.head?_nil, Option.map_none,
        Option.none_or]

/-- What is wrong with a function does not depend on the types in it. -/
theorem FuncHead.flaw?_eq_bare (h : FuncHead) (body : Block) :
    h.flaw? body =
      ((h.bare.params.find? (·.name.isNone)).map fun d => ⟨d.span, .unnamedParameter⟩).or
        (((body.parts.map Part.bare).filterMap Part.head?).head?.map fun h =>
          ⟨h.span, .nestedFunction⟩) := by
  rw [Part.heads_bare, Block.heads_parts, List.head?_map, List.head?_map, Option.map_map,
    Option.map_map, FuncHead.bare, List.find?_map, Option.map_map]
  rfl

section Items

variable {c : Container} {i i₁ : Item} {is is₁ is₂ : List Item} {s s' : Session}

/-- Settling types changes nothing about the flaws of an item. -/
theorem Item.Settled.flaw?_eq (h : i.Settled c i₁) (functions globals : List String) :
    i₁.flaw? functions globals = i.flaw? functions globals := by
  cases h with
  | @var d d₁ hd =>
      have hbecomes := hd.becomes none
      have hspan : d₁.span = d.span := hbecomes.span
      have hname : d₁.name = d.name := hbecomes.name
      unfold Item.flaw?
      dsimp only
      rw [hname, hspan]
  | @func head head₁ body body₁ hhead hbody =>
      obtain ⟨hname, hspan, _, _⟩ := hhead.head
      have hbare : head₁.bare = head.bare := Part.head.inj hhead.1
      have hflaw : head₁.flaw? body₁ = head.flaw? body := by
        rw [FuncHead.flaw?_eq_bare, FuncHead.flaw?_eq_bare, hbare, Part.Settled.bare hbody]
      unfold Item.flaw?
      dsimp only
      rw [hname, hspan, hflaw]

theorem Item.Becomes.variableNames (h : List.Forall₂ (Item.Becomes c) is is₂) :
    (Item.variables is₂).map (·.name) = (Item.variables is).map (·.name) :=
  (map_eq_of_forall₂ (fun _ _ hd => hd.name.symm) (Item.Becomes.variables h)).symm

theorem Item.Becomes.functionNames (h : List.Forall₂ (Item.Becomes c) is is₂) :
    (Item.functions is₂).map (·.1.name) = (Item.functions is).map (·.1.name) :=
  (map_eq_of_forall₂ (fun _ _ hf => hf.name.symm) (Item.Becomes.functions h)).symm

/-- Items that have been entered into empty tables could be, and the tables have their names. -/
theorem Item.enterable_of_allotAll (hsettled : List.Forall₂ (Item.Settled c) is is₁)
    (hfunctions : s.container.functions = []) (hglobals : s.container.globals = [])
    (h : Item.allotAll is₁ s = ⟨is₂, s', .ok ()⟩) :
    Item.Enterable is ∧ s'.container.functions.map (·.name) = (Item.functions is).map (·.1.name) ∧
      s'.container.globals.map (·.name) = (Item.variables is).filterMap (·.name) := by
  have hbecomes := (Item.becomes_allotAll hsettled h).1
  have henters := (Item.enters_allotAll _ h).1
  have hfunctionNames : s'.container.functions.map (·.name) = (Item.functions is).map (·.1.name) := by
    have hnames := henters.functions.map_eq (f := fun p => p.1.name) (g := Function.name)
      fun hf => hf.name.symm
    rwa [hfunctions, List.map_nil, List.nil_append, Item.Becomes.functionNames hbecomes] at hnames
  have hglobalNames : (s'.container.globals.map (·.name)).map some =
      (Item.variables is).map (·.name) := by
    have hnames := henters.globals.map_eq (f := VarDecl.name) (g := some ∘ Variable.name) fun hv => hv.1
    rwa [hglobals, List.map_nil, List.nil_append, Item.Becomes.variableNames hbecomes,
      ← List.map_map] at hnames
  -- every function of the text has become one that was entered
  have hfunction : ∀ p ∈ Item.functions is, ∃ head body, p.1.Becomes c p.2 head body := by
    intro p hp
    obtain ⟨p', _, hp'⟩ := exists_of_forall₂ (Item.Becomes.functions hbecomes).flip hp
    exact ⟨_, _, hp'⟩
  refine ⟨⟨?_, ?_, fun p hp => ?_, fun p hp => ?_⟩, hfunctionNames, ?_⟩
  · rw [← hfunctionNames]
    exact henters.functionNames (by rw [hfunctions]; exact List.nodup_nil)
  · rw [← hglobalNames]
    refine List.Nodup.map (Option.some_injective _) (henters.globalNames ?_)
    rw [hglobals]
    exact List.nodup_nil
  · obtain ⟨_, _, hp'⟩ := hfunction p hp
    exact hp'.named
  · obtain ⟨_, _, hp'⟩ := hfunction p hp
    exact Block.functions_eq_nil.mpr hp'.flat
  · rw [map_eq_map_some Item.named_variables] at hglobalNames
    exact List.map_injective_iff.mpr (Option.some_injective _) hglobalNames

/-- Where entering items stops, by the items of the text. -/
theorem Item.StopsAllotting.of_settled {e : SemanticError} (h : Item.StopsAllotting is₁ s e s')
    (hsettled : List.Forall₂ (Item.Settled c) is is₁) (hfunctions : s.container.functions = [])
    (hglobals : s.container.globals = []) :
    ∃ js i ks, is = js ++ i :: ks ∧ Item.Enterable js ∧ i.flawAfter? js = some e ∧
      ∃ js₂, Item.allotAll (is₁.take js.length) s = ⟨js₂, s', .ok ()⟩ := by
  obtain ⟨js₁, i₁, ks₁, rfl, ⟨js₂, hjs₂⟩, he⟩ := h
  obtain ⟨js, i, ks, rfl, hjs, hi⟩ := forall₂_cut hsettled
  obtain ⟨henterable, hfunctionNames, hglobalNames⟩ :=
    Item.enterable_of_allotAll hjs hfunctions hglobals hjs₂
  rw [Container.flaw?, hi.flaw?_eq, hfunctionNames, hglobalNames] at he
  refine ⟨js, i, ks, rfl, henterable, he, js₂, ?_⟩
  rw [List.take_left' hjs.length_eq.symm, hjs₂]

end Items

/-- The items of a program up to a number of them. -/
def Block.take (b : Block) (n : Nat) : Block := { b with items := b.items.take n }

section Numbers

variable {version : Nat} {b b₁ : Block} {s₁ s : Session}

/--
**How handing out numbers ends** after the types of a program have been settled in a new container. If it
fails, it does what it would have done on the items before the first that has a flaw.
-/
theorem Block.Fresh.allot_ends (hb : b.Fresh)
    (htypes : b.bindTypes (.ofContainer (.empty version)) = ⟨b₁, s₁, .ok ()⟩)
    (hs : s.container = s₁.container) :
    (b₁.allot s).Ends (fun _ _ _ => Item.Enterable b.items) fun e s' =>
      ∃ js i ks, b.items = js ++ i :: ks ∧ Item.Enterable js ∧ i.flawAfter? js = some e ∧
        ∃ b₂, (b₁.take js.length).allot s = ⟨b₂, s', .ok ()⟩ := by
  have hsame := (Block.isScript_bindTypes htypes hb.isScript).2
  have hfunctions : s.container.functions = [] := hs ▸ hsame.functions
  have hglobals : s.container.globals = [] := hs ▸ hsame.globals
  have hsettled := hb.settled htypes (.refl _)
  -- all types have codes, so only names and places can be wrong
  have htypesEnd := Block.bindTypes_appends hb.written (.ofContainer (.empty version))
  rw [htypes] at htypesEnd
  have hcoded := (htypesEnd.ok () rfl).2
  rw [show s₁.container = s.container from hs.symm] at hcoded
  obtain ⟨items₁, p⟩ := b₁
  refine .map ((Item.allotAll_ends hcoded).named.mono ?_ ?_)
  · rintro items₂ _ s₂ ⟨hitems, _⟩
    exact (Item.enterable_of_allotAll hsettled hfunctions hglobals hitems).1
  · rintro e s' ⟨_, hstops⟩
    obtain ⟨js, i, ks, hcut, hjs, hi, js₂, hjs₂⟩ := hstops.of_settled hsettled hfunctions hglobals
    exact ⟨js, i, ks, hcut, hjs, hi, _, Step.map_eq_ok.mpr ⟨js₂, hjs₂, rfl⟩⟩

theorem Block.Fresh.allot_ok_iff (hb : b.Fresh)
    (htypes : b.bindTypes (.ofContainer (.empty version)) = ⟨b₁, s₁, .ok ()⟩)
    (hs : s.container = s₁.container) : (b₁.allot s).result = .ok () ↔ Item.Enterable b.items := by
  refine (hb.allot_ends htypes hs).ok_iff ?_
  rintro e _ ⟨js, i, ks, hcut, _, hi, _⟩ henterable
  rw [hcut] at henterable
  rw [henterable.flawAfter?_eq_none] at hi
  cases hi

end Numbers

/--
**When handing out numbers succeeds, and what a failure leaves.** After types have been settled in a new
container it succeeds exactly if all items can be entered. Otherwise it stops at the first item with a flaw,
for which a taken name comes before a parameter without a name, and that before a function inside. Nothing
of this item is entered: the session is the one that entering the items before it leaves.
-/
theorem Block.allot_result {source : String} {version : Nat} {b b₁ : Block} {s₁ s : Session}
    (hparse : Block.parse source = .ok b)
    (htypes : b.bindTypes (.ofContainer (.empty version)) = ⟨b₁, s₁, .ok ()⟩)
    (hs : s.container = s₁.container) :
    ((b₁.allot s).result = .ok () ↔ Item.Enterable b.items) ∧
      (¬Item.Enterable b.items →
        ∃ js i ks e, b.items = js ++ i :: ks ∧ Item.Enterable js ∧ i.flawAfter? js = some e ∧
          (b₁.allot s).result = .error e ∧
          ((b₁.take js.length).allot s).result = .ok () ∧
          ((b₁.take js.length).allot s).state = (b₁.allot s).state) := by
  have hfresh := Block.fresh_of_parse hparse
  refine ⟨hfresh.allot_ok_iff htypes hs, fun hflawed => ?_⟩
  obtain ⟨e, he, js, i, ks, hcut, hjs, hi, b₂, hb₂⟩ :=
    (hfresh.allot_ends htypes hs).error_of_not hflawed
  exact ⟨js, i, ks, e, hcut, hjs, hi, he, by rw [hb₂], by rw [hb₂]⟩

/-- A program with a function deep in the body of another, behind items that can be entered. -/
def misplaced : String :=
  "int g;
void f(int a) \x7b string b; \x7d
struct T \x7b int x; \x7d t;
void h(int n) \x7b
  for (int i; i < n;) switch (n) \x7b case 1: if (n) \x7b int k(int) \x7b\x7d \x7d \x7d
\x7d
int z;"

/-- The complaint about the inner function of that program. -/
def misplacedError : SemanticError := ⟨⟨126, 139⟩, .nestedFunction⟩

set_option maxRecDepth 100000 in
theorem Block.allot_result_misplaced :
    ∃ b b₁ s₁, Block.parse misplaced = .ok b ∧
      b.bindTypes (.ofContainer (.empty 0)) = ⟨b₁, s₁, .ok ()⟩ ∧ ¬Item.Enterable b.items ∧
      (b₁.allot s₁).state.container.functions.map (·.name) = ["f"] ∧
      (b₁.allot s₁).state.container.globals.map (·.name) = ["g", "t"] ∧
      (b₁.allot s₁).result = .error misplacedError ∧
      ∃ js i ks, b.items = js ++ i :: ks ∧ Item.Enterable js ∧
        i.flawAfter? js = some misplacedError ∧
        ((b₁.take js.length).allot s₁).result = .ok () ∧
        ((b₁.take js.length).allot s₁).state = (b₁.allot s₁).state := by
  obtain ⟨b, hparse, hrun⟩ := Block.exists_of_chars misplaced (fun b =>
      let r₁ := b.bindTypes (.ofContainer (.empty 0))
      let r₂ := r₁.tree.allot r₁.state
      r₁.result.isOk && (r₂.result = .error misplacedError && (¬Item.Enterable b.items &&
        (r₂.state.container.functions.map (·.name) = ["f"] &&
          r₂.state.container.globals.map (·.name) = ["g", "t"])))) rfl (by decide +kernel)
  obtain ⟨hok, hrest⟩ := Bool.and_eq_true_iff.mp hrun
  obtain ⟨herror, hrest⟩ := Bool.and_eq_true_iff.mp hrest
  obtain ⟨hflawed, hrest⟩ := Bool.and_eq_true_iff.mp hrest
  obtain ⟨hfunctions, hglobals⟩ := Bool.and_eq_true_iff.mp hrest
  have htypes := Step.eq_of_isOk hok
  have herror := of_decide_eq_true herror
  have hflawed := of_decide_eq_true hflawed
  obtain ⟨js, i, ks, e, hcut, hjs, hi, he, hbefore⟩ :=
    (Block.allot_result hparse htypes rfl).2 hflawed
  obtain rfl : e = misplacedError := Except.error.inj (he.symm.trans herror)
  exact ⟨b, _, _, hparse, htypes, hflawed, of_decide_eq_true hfunctions, of_decide_eq_true hglobals,
    herror, js, i, ks, hcut, hjs, hi, hbefore⟩

/-! ## Programs -/

/--
Nothing is wrong with the declarations of a program. Structs have names, no name is given twice, types are
words or the names of structs, parameters have names, and no function stands inside of another.
-/
structure Block.Consistent (b : Block) : Prop where
  definitions : TypeSpec.Enterable b.definitions
  types : TypeSpec.Known b.definitions b.specs
  items : Item.Enterable b.items

section Programs

variable {version : Nat} {b : Block}

/-- The first two passes succeed only if the declarations are consistent. -/
theorem Block.Fresh.consistent (hb : b.Fresh) {b₁ b₂ : Block} {s₁ s₂ : Session} {e : LogEvent}
    (htypes : b.bindTypes (.ofContainer (.empty version)) = ⟨b₁, s₁, .ok ()⟩)
    (hdecls : b₁.allot (s₁.note e) = ⟨b₂, s₂, .ok ()⟩) : b.Consistent := by
  obtain ⟨hdefinitions, hknown⟩ := (hb.bindTypes_ok_iff version).mp (by rw [htypes])
  exact ⟨hdefinitions, hknown, (hb.allot_ok_iff (s := s₁.note e) htypes rfl).mp (by rw [hdecls])⟩

/-- **The first two passes succeed if the declarations are consistent.** -/
theorem Block.Fresh.prepares (hb : b.Fresh) (h : b.Consistent) (version : Nat) :
    ∃ b₁ s₁, b.bindTypes (.ofContainer (.empty version)) = ⟨b₁, s₁, .ok ()⟩ ∧
      ∀ e, ∃ b₂ s₂, b₁.allot (s₁.note e) = ⟨b₂, s₂, .ok ()⟩ := by
  have hok := (hb.bindTypes_ok_iff version).mpr ⟨h.definitions, h.types⟩
  have htypes := Step.eq_of_isOk (by rw [hok]; rfl)
  refine ⟨_, _, htypes, fun e => ?_⟩
  have hok := (hb.allot_ok_iff (s := Session.note _ e) htypes rfl).mpr h.items
  exact ⟨_, _, Step.eq_of_isOk (by rw [hok]; rfl)⟩

end Programs

end Jaf
