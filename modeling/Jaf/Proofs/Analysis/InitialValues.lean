import Jaf.Proofs.Analysis.AnalysedPrograms
import Jaf.Proofs.Analysis.NumberIndependence
import Jaf.Proofs.Analysis.ResolvedTrees

/-!
# The initial values of globals

A program is accepted item by item. Whether an item is accepted depends on the tables alone, and not on
what has been recorded and logged for the items before it (`Item.passAll_outside`), so the check of a
program succeeds exactly if all its items are accepted (`Block.check_isOk`). A function is accepted if its
body passes, and a global if it has no initializer or one of its type whose value can be known.

The values are recorded as the globals are reached. So the table of initial values lists the globals that
have an initializer, in the order of the text, each with its slot and the value that the evaluator finds,
and looking a slot up in it finds the value of that global.
-/

namespace Jaf

/-! ## Tables that are the same -/

theorem TypeCode.renumber_id (t : TypeCode) : t.renumber id = t := by
  rw [TypeCode.renumber, Option.map_id_apply]

theorem Variable.renumber_id : Variable.renumber id = id := by
  funext v
  rw [Variable.renumber, TypeCode.renumber_id, id]

theorem Struct.renumber_id (s : Struct) : s.renumber id = s := by
  rw [Struct.renumber, Variable.renumber_id, List.map_id]

theorem Function.renumber_id (f : Function) : f.renumber id = f := by
  rw [Function.renumber, Variable.renumber_id, List.map_id, TypeCode.renumber_id]

theorem Container.SameTables.translates {c c' : Container} (h : c.SameTables c') :
    c.Translates id c' where
  structs := by
    intro n st hst
    rw [h.structs, Struct.renumber_id]
    exact hst
  functions := by
    intro name n f hn hf
    refine ⟨n, ?_, ?_⟩
    · rw [Container.functionNo?, h.functions]
      exact hn
    · rw [h.functions, Function.renumber_id]
      exact hf
  globals := by
    intro name n v hn hv
    refine ⟨n, ?_, ?_⟩
    · rw [Container.globalNo?, h.globals]
      exact hn
    · rw [h.globals, Variable.renumber_id]
      exact hv

theorem Container.SameTables.symm {c c' : Container} (h : c.SameTables c') : c'.SameTables c :=
  ⟨h.structs.symm, h.functions.symm, h.globals.symm⟩

theorem Container.SameTables.trans {a b c : Container} (h : a.SameTables b) (h' : b.SameTables c) :
    a.SameTables c :=
  ⟨h'.structs.trans h.structs, h'.functions.trans h.functions, h'.globals.trans h.globals⟩

/-- What names mean outside of functions. -/
def Container.lookup (c : Container) : Lookup := .ofScopes .empty c

theorem Checker.Outside.lookup_eq {c : Container} {k : Checker} (h : k.Outside c) :
    k.lookup = c.lookup := by
  obtain ⟨⟨⟨version', structs', functions', globals', initvals'⟩, log⟩, ⟨frames⟩⟩ := k
  obtain ⟨version, structs, functions, globals, initvals⟩ := c
  obtain ⟨⟨rfl, rfl, rfl⟩, rfl⟩ := h
  rfl

/-! ## Items that are accepted -/

/-- The initializer of a global, if it has one, is of its type and has a value that can be known. -/
def VarDecl.Starts (c : Container) (d : VarDecl) : Prop :=
  ∀ e, d.init = some e → ∃ t v, d.valueType? = some t ∧ e.HasType c.lookup t ∧ e.constant? = some v

/-- The initial value of a global. -/
def VarDecl.initval? (d : VarDecl) : Option Initval := do
  let slot ← d.slot
  let e ← d.init
  let value ← e.constant?
  return ⟨slot, value⟩

/-- What the tables say of a top-level item: whether it is accepted. -/
def Item.Accepted (c : Container) : Item → Prop
  | .var d => d.name.isSome = true → d.Starts c
  | .func h body => ∃ k, Part.passAll (Item.func h body).parts (.ofSession (.ofContainer c)) = some k
  | .stmt _ => False

/-- The initial value that an item adds to the table, if it is a global that has one. -/
def Item.initvals : Item → List Initval
  | .var d => if d.name.isSome then d.initval?.toList else []
  | .func _ _ | .stmt _ => []

section Outside

variable {c : Container} {k k' : Checker}

theorem Checker.outside_ofContainer (c : Container) :
    Checker.Outside c (.ofSession (.ofContainer c)) := ⟨⟨rfl, rfl, rfl⟩, rfl⟩

theorem Checker.Outside.passes (hk : k.Outside c) (h : k.Passes k') : k'.Outside c :=
  ⟨hk.tables.trans h.tables, h.outside hk.frames⟩

/-- A check that starts outside of functions ends outside of them. -/
theorem Checker.Outside.passAll {i : Item} (hk : k.Outside c)
    (hpass : Part.passAll i.parts k = some k') : k'.Outside c := by
  rw [← Item.after?_check] at hpass
  obtain ⟨i', hi'⟩ := Step.after?_eq_some.mp hpass
  have hpasses := (Item.checks_check i k).passes
  rw [hi'] at hpasses
  exact hk.passes hpasses

theorem VarDecl.At.valueType?_eq {d : VarDecl} {vars : List Variable} {slot : Nat} {v : Variable}
    (h : d.At vars slot) (hv : vars[slot]? = some v) : d.valueType? = some v.type.valueType := by
  obtain ⟨_, w, hw, _, hcode⟩ := h
  rw [hv] at hw
  cases hw
  rw [VarDecl.valueType?, hcode]

/-- A global that is checked records its initial value. -/
theorem VarDecl.passAll_global {d : VarDecl} (hready : (Item.var d).Ready c) (hk : k.Outside c)
    (hpass : Part.passAll (Item.var d).parts k = some k') :
    (Item.var d).Accepted c ∧
      k'.container.initvals = k.container.initvals ++ (Item.var d).initvals := by
  have hglobal : k.scopes.isGlobal = true := by simp [Scopes.isGlobal, hk.frames]
  have hpass : (d.check k).after? = some k' := by rwa [Item.parts, Part.passAll_singleton] at hpass
  rw [VarDecl.check, if_pos hglobal] at hpass
  rcases VarDecl.after?_checkGlobal.mp hpass with ⟨hname, rfl⟩ | ⟨name, slot, hname, hslot, hinit⟩
  · refine ⟨fun hsome => ?_, ?_⟩
    · rw [hname] at hsome
      cases hsome
    · simp [Item.initvals, hname]
  · have hsome : d.name.isSome = true := by rw [hname]; rfl
    rcases hinit with ⟨hnone, rfl⟩ | ⟨e, g, v, he, hg, ht, hv, rfl⟩
    · refine ⟨fun _ e he => ?_, ?_⟩
      · rw [hnone] at he
        cases he
      · simp [Item.initvals, VarDecl.initval?, hname, hslot, hnone]
    · obtain ⟨slot', hat⟩ := hready hsome
      obtain rfl : slot = slot' := Option.some.inj (hslot.symm.trans hat.1)
      rw [hk.tables.globals] at hg
      rw [hk.lookup_eq] at ht
      refine ⟨fun _ e' he' => ?_, ?_⟩
      · rw [he] at he'
        cases he'
        exact ⟨_, v, hat.valueType?_eq hg, ht, hv⟩
      · simp [Item.initvals, VarDecl.initval?, hname, hslot, he, hv, Checker.container,
          Session.addInitval, Session.note, Container.addInitval]

theorem VarDecl.exists_passAll_global {d : VarDecl} (hready : (Item.var d).Ready c)
    (hk : k.Outside c) (hd : (Item.var d).Accepted c) :
    ∃ k', Part.passAll (Item.var d).parts k = some k' := by
  have hglobal : k.scopes.isGlobal = true := by simp [Scopes.isGlobal, hk.frames]
  rw [Item.parts, Part.passAll_singleton, Part.pass, VarDecl.check, if_pos hglobal]
  cases hname : d.name with
  | none => exact ⟨k, VarDecl.after?_checkGlobal.mpr (.inl ⟨hname, rfl⟩)⟩
  | some name =>
      have hsome : d.name.isSome = true := by rw [hname]; rfl
      obtain ⟨slot, hat⟩ := hready hsome
      cases hinit : d.init with
      | none =>
          exact ⟨k, VarDecl.after?_checkGlobal.mpr
            (.inr ⟨name, slot, hname, hat.1, .inl ⟨hinit, rfl⟩⟩)⟩
      | some e =>
          obtain ⟨t, v, ht, htype, hv⟩ := hd hsome e hinit
          obtain ⟨g, hg, _⟩ := hat.2
          rw [hat.valueType?_eq hg] at ht
          cases ht
          rw [← hk.lookup_eq] at htype
          rw [← hk.tables.globals] at hg
          exact ⟨_, VarDecl.after?_checkGlobal.mpr
            (.inr ⟨name, slot, hname, hat.1, .inr ⟨e, g, v, hinit, hg, htype, hv, rfl⟩⟩)⟩

/-- Whether a function is accepted depends on the tables alone. -/
theorem FuncHead.passAll_transfer {h : FuncHead} {body : Block} (hready : (Item.func h body).Ready c)
    {k₁ k₂ : Checker} (hk : k.Outside c) (hk₂ : k₂.Outside c)
    (hpass : Part.passAll (Item.func h body).parts k = some k₁) :
    k₁.session = k.session.note (.functionEntered h.name) ∧
      ∃ k₂', Part.passAll (Item.func h body).parts k₂ = some k₂' := by
  obtain ⟨n, f, hnumber, hf, hdesc, _⟩ := hready
  have hflat := Block.isHead_parts hdesc.flat
  have hf₁ : k.container.functions[n]? = some f := by rw [hk.tables.functions]; exact hf
  have hf₂ : k₂.container.functions[n]? = some (f.renumber id) := by
    rw [hk₂.tables.functions, Function.renumber_id]
    exact hf
  obtain ⟨hsession, k₂', hk₂', _⟩ := Item.passAll_function
    (hk.tables.symm.trans hk₂.tables).translates hk.frames hk₂.frames hnumber hnumber hf₁ hf₂ rfl
    hflat hpass
  exact ⟨hsession, k₂', hk₂'⟩

/-- **Whether an item passes depends on the tables alone**, and what it records on the item. -/
theorem Item.passAll_outside {i : Item} (hready : i.Ready c) (hk : k.Outside c) :
    (i.Accepted c → ∃ k', Part.passAll i.parts k = some k') ∧
      ∀ k', Part.passAll i.parts k = some k' →
        i.Accepted c ∧ k'.Outside c ∧ k'.container.initvals = k.container.initvals ++ i.initvals := by
  cases i with
  | stmt x => cases hready
  | var d =>
      refine ⟨VarDecl.exists_passAll_global hready hk, fun k' hpass => ?_⟩
      obtain ⟨haccepted, hinitvals⟩ := VarDecl.passAll_global hready hk hpass
      exact ⟨haccepted, hk.passAll hpass, hinitvals⟩
  | func h body =>
      have hempty := Checker.outside_ofContainer c
      constructor
      · intro haccepted
        obtain ⟨k₁, hpass⟩ := haccepted
        exact (FuncHead.passAll_transfer hready hempty hk hpass).2
      · intro k' hpass
        obtain ⟨hsession, haccepted⟩ := FuncHead.passAll_transfer hready hk hempty hpass
        refine ⟨haccepted, hk.passAll hpass, ?_⟩
        rw [Checker.container, hsession, Item.initvals, List.append_nil]
        rfl

theorem Item.passAll_items {is : List Item} (his : ∀ i ∈ is, i.Ready c) (hk : k.Outside c) :
    ((∀ i ∈ is, i.Accepted c) → ∃ k', Part.passAll (Item.partsOf is) k = some k') ∧
      ∀ k', Part.passAll (Item.partsOf is) k = some k' →
        (∀ i ∈ is, i.Accepted c) ∧
          k'.container.initvals = k.container.initvals ++ is.flatMap Item.initvals := by
  induction is generalizing k with
  | nil =>
      refine ⟨fun _ => ⟨k, rfl⟩, fun k' hpass => ?_⟩
      cases hpass
      refine ⟨fun i hi => ?_, by simp⟩
      cases hi
  | cons i is ih =>
      obtain ⟨hi, his⟩ := List.forall_mem_cons.mp his
      obtain ⟨hpasses, hpassed⟩ := Item.passAll_outside hi hk
      rw [Item.partsOf, Part.passAll_append]
      constructor
      · intro haccepted
        obtain ⟨hfirst, hrest⟩ := List.forall_mem_cons.mp haccepted
        obtain ⟨k₁, hk₁⟩ := hpasses hfirst
        rw [hk₁, Option.bind_some]
        exact (ih his (hpassed k₁ hk₁).2.1).1 hrest
      · intro k' hpass
        obtain ⟨k₁, hk₁, hpass⟩ := Option.bind_eq_some_iff.mp hpass
        obtain ⟨hfirst, hout, hinitvals⟩ := hpassed k₁ hk₁
        obtain ⟨hrest, hinitvals'⟩ := (ih his hout).2 k' hpass
        refine ⟨List.forall_mem_cons.mpr ⟨hfirst, hrest⟩, ?_⟩
        rw [hinitvals', hinitvals, List.flatMap_cons, List.append_assoc]

end Outside

/-! ## Programs that are accepted -/

section Program

variable {b : Block} {s : Session}

theorem Item.flatMap_initvals (is : List Item) :
    is.flatMap Item.initvals = (Item.variables is).filterMap VarDecl.initval? := by
  induction is with
  | nil => rfl
  | cons i is ih =>
      rw [List.flatMap_cons, ih]
      cases i with
      | func | stmt => rfl
      | var d =>
          cases hname : d.name with
          | none => rw [Item.variables_unnamed hname, Item.initvals, hname]; rfl
          | some name =>
              have hsome : d.name.isSome = true := by rw [hname]; rfl
              rw [Item.variables_named hsome, Item.initvals, if_pos hsome]
              cases hv : d.initval? with
              | none => rw [List.filterMap_cons_none hv]; rfl
              | some v => rw [List.filterMap_cons_some hv]; rfl

/-- **A program is accepted exactly if all its items are**, and then its initial values are recorded. -/
theorem Block.check_isOk (hready : ∀ i ∈ b.items, i.Ready s.container) :
    ((b.checkProgram s).result.isOk = true ↔ ∀ i ∈ b.items, i.Accepted s.container) ∧
      ((b.checkProgram s).result.isOk = true →
        (b.checkProgram s).state.container.initvals =
          s.container.initvals ++ (Item.variables b.items).filterMap VarDecl.initval?) := by
  have hout : Checker.Outside s.container (.ofSession s) := ⟨⟨rfl, rfl, rfl⟩, rfl⟩
  have hafter : (b.checkProgram s).after? = Part.passAll (Item.partsOf b.items) (.ofSession s) := by
    obtain ⟨items, p⟩ := b
    exact Block.after?_check ⟨items, p⟩ (.ofSession s)
  obtain ⟨hpasses, hpassed⟩ := Item.passAll_items hready hout
  have hok : (b.checkProgram s).result.isOk = true →
      Part.passAll (Item.partsOf b.items) (.ofSession s) = some (b.checkProgram s).state := by
    intro h
    rw [← hafter]
    exact Step.after?_eq_some.mpr ⟨_, Step.eq_of_isOk h⟩
  refine ⟨⟨fun h => (hpassed _ (hok h)).1, fun haccepted => ?_⟩, fun h => ?_⟩
  · obtain ⟨k', hk'⟩ := hpasses haccepted
    rw [← hafter] at hk'
    obtain ⟨b', hb'⟩ := Step.after?_eq_some.mp hk'
    rw [hb']
    rfl
  · rw [(hpassed _ (hok h)).2, Item.flatMap_initvals]
    rfl

end Program

/-! ## New containers -/

/-- Writing members changes nothing but structs. -/
theorem Session.Writes.initvals_eq {c : Container} {s s' : Session} {ds : List TypeSpec}
    (h : s.Writes c ds s') : s'.container.initvals = s.container.initvals := by
  induction h with
  | nil => rfl
  | cons _ _ _ ih => rw [ih]; rfl

/-- No initial value has been recorded before the last pass. -/
theorem Block.Fresh.initvals_eq {version : Nat} {b b₁ b₂ : Block} {s₁ s₂ : Session} {e : LogEvent}
    (hb : b.Fresh) (htypes : b.bindTypes (.ofContainer (.empty version)) = ⟨b₁, s₁, .ok ()⟩)
    (hdecls : b₁.allot (s₁.note e) = ⟨b₂, s₂, .ok ()⟩) : s₂.container.initvals = [] := by
  obtain ⟨_, hbeside⟩ := hb.becomes htypes hdecls
  have hends := Block.bindTypes_ends hb.written (.ofContainer (.empty version))
  rw [htypes] at hends
  obtain ⟨s₀, hregisters, ⟨ws, hwrites, _⟩, _⟩ := hends.ok () rfl
  rw [hbeside.initvals, hwrites.initvals_eq, hregisters.container_eq]
  rfl

/-! ## The table of initial values -/

/-- The table has a record for each global with an initializer, in order. -/
theorem VarDecl.forall₂_initvals {ds : List VarDecl}
    (hds : ∀ d ∈ ds, ∀ e, d.init = some e →
      ∃ slot v, d.slot = some slot ∧ e.constant? = some v ∧ d.valueType? = some v.type) :
    List.Forall₂ (fun d r => d.slot = some r.global ∧ d.init.bind Expr.constant? = some r.value ∧
        d.valueType? = some r.value.type)
      (ds.filter (·.init.isSome)) (ds.filterMap VarDecl.initval?) := by
  induction ds with
  | nil => exact .nil
  | cons d ds ih =>
      obtain ⟨hd, hds⟩ := List.forall_mem_cons.mp hds
      have hrest := ih hds
      cases hinit : d.init with
      | none =>
          have hnone : d.initval? = none := by
            unfold VarDecl.initval?
            rw [hinit]
            cases d.slot <;> rfl
          rw [List.filter_cons_of_neg (by simp [hinit]), List.filterMap_cons_none hnone]
          exact hrest
      | some e =>
          obtain ⟨slot, v, hslot, hv, htype⟩ := hd e hinit
          have hsome : d.initval? = some ⟨slot, v⟩ := by
            simp [VarDecl.initval?, hslot, hinit, hv]
          rw [List.filter_cons_of_pos (by simp [hinit]), List.filterMap_cons_some hsome]
          exact .cons ⟨hslot, by rw [hinit]; exact hv, htype⟩ hrest

/-- The record of a global has its slot. -/
theorem VarDecl.slot_of_initval? {d : VarDecl} {r : Initval} (h : d.initval? = some r) :
    d.slot = some r.global := by
  obtain ⟨slot, hslot, h⟩ := Option.bind_eq_some_iff.mp h
  obtain ⟨e, _, h⟩ := Option.bind_eq_some_iff.mp h
  obtain ⟨v, _, h⟩ := Option.bind_eq_some_iff.mp h
  cases h
  exact hslot

/-- Looking a slot up finds the value of the global that has it. -/
theorem VarDecl.find?_initval {ds : List VarDecl} (hslots : (ds.map VarDecl.slot).Nodup) {d : VarDecl}
    (hd : d ∈ ds) {slot : Nat} (hslot : d.slot = some slot) :
    (ds.filterMap VarDecl.initval?).find? (·.global = slot) = d.initval? := by
  induction ds with
  | nil => cases hd
  | cons d' ds ih =>
      rw [List.map_cons, List.nodup_cons] at hslots
      obtain ⟨hfresh, hslots⟩ := hslots
      rcases List.mem_cons.mp hd with rfl | hd
      · cases hv : d.initval? with
        | some r =>
            have hr : r.global = slot := Option.some.inj ((slot_of_initval? hv).symm.trans hslot)
            rw [List.filterMap_cons_some hv, List.find?_cons_of_pos (by simpa using hr)]
        | none =>
            rw [List.filterMap_cons_none hv, List.find?_eq_none]
            -- the slot is not that of another global
            intro r hr
            obtain ⟨d'', hd'', hr⟩ := List.mem_filterMap.mp hr
            have hslot'' := slot_of_initval? hr
            simp only [decide_eq_true_eq]
            rintro rfl
            exact hfresh (List.mem_map.mpr ⟨d'', hd'', hslot''.trans hslot.symm⟩)
      · have hne : d'.slot ≠ some slot := by
          intro heq
          exact hfresh (List.mem_map.mpr ⟨d, hd, hslot.trans heq.symm⟩)
        cases hv : d'.initval? with
        | none => rw [List.filterMap_cons_none hv, ih hslots hd]
        | some r =>
            have hr : ¬r.global = slot := fun heq => hne (heq ▸ slot_of_initval? hv)
            rw [List.filterMap_cons_some hv, List.find?_cons_of_neg (by simpa using hr), ih hslots hd]

/-! ## Initial values -/

/-- A top-level item without the initializer that it may have. -/
def Item.withoutInitial : Item → Item
  | .var d => .var { d with init := none }
  | i => i

/-- A program without the initializers of its globals. -/
def Block.withoutInitials (b : Block) : Block := { b with items := b.items.map Item.withoutInitial }

theorem Item.Ready.withoutInitial {c : Container} {i : Item} (h : i.Ready c) :
    i.withoutInitial.Ready c := by
  cases i with
  | var | func => exact h
  | stmt => cases h

theorem Expr.result_infer {env : Lookup} {e : Expr} {t : ValueType} :
    (e.infer env).result = .ok t ↔ e.HasType env t := by
  rw [Expr.hasType_iff]
  constructor
  · intro h
    exact ⟨(e.infer env).tree, by rw [← h]⟩
  · intro h
    obtain ⟨x, hx⟩ := h
    rw [hx]

namespace Block.Entered

/-- If all else is accepted, then it is all about the globals. -/
theorem accepts_iff {b : Block} {s : Session} (h : b.Entered s.container)
    (hothers : (b.withoutInitials.checkProgram s).result.isOk = true) :
    (b.checkProgram s).result.isOk = true ↔ ∀ d ∈ Item.variables b.items, d.Starts s.container := by
  have hready : ∀ i ∈ b.items, i.Ready s.container := fun i hi => h.ready hi
  have hready' : ∀ i ∈ b.withoutInitials.items, i.Ready s.container := by
    intro i hi
    obtain ⟨j, hj, rfl⟩ := List.mem_map.mp hi
    exact (hready j hj).withoutInitial
  have haccepted := (Block.check_isOk hready').1.mp hothers
  rw [(Block.check_isOk hready).1]
  constructor
  · intro hall d hd
    obtain ⟨hmem, hname⟩ := Item.mem_variables.mp hd
    exact hall _ hmem hname
  · intro hstarts i hi
    cases i with
    | var d => exact fun hname => hstarts d (Item.mem_variables.mpr ⟨hi, hname⟩)
    | func h body => exact haccepted _ (List.mem_map.mpr ⟨_, hi, rfl⟩)
    | stmt x => exact hready _ hi

variable {b : Block} {c : Container}

/-- The table lists the globals that have an initializer, with their slots and values. -/
theorem initvals_listed (h : b.Entered c) (hstarts : ∀ d ∈ Item.variables b.items, d.Starts c) :
    List.Forall₂ (fun d r => d.slot = some r.global ∧ d.init.bind Expr.constant? = some r.value ∧
        d.valueType? = some r.value.type)
      ((Item.variables b.items).filter (·.init.isSome))
      ((Item.variables b.items).filterMap VarDecl.initval?) := by
  refine VarDecl.forall₂_initvals fun d hd init hinit => ?_
  obtain ⟨t, v, ht, htype, hv⟩ := hstarts d hd init hinit
  obtain ⟨slot, _, hslot, _⟩ := h.globals.entry hd
  exact ⟨slot, v, hslot, hv, by rw [ht, htype.constant hv]⟩

theorem slots_nodup (h : b.Entered c) : ((Item.variables b.items).map VarDecl.slot).Nodup := by
  rw [h.globals.positions]
  exact List.Nodup.map (Option.some_injective Nat) List.nodup_range

/-- Looking up the slot of a global gives the value of its initializer. -/
theorem initval_of_slot (h : b.Entered c) (hstarts : ∀ d ∈ Item.variables b.items, d.Starts c)
    {d : VarDecl} (hd : d ∈ Item.variables b.items) {slot : Nat} (hslot : d.slot = some slot) :
    (((Item.variables b.items).filterMap VarDecl.initval?).find? (·.global = slot)).map (·.value) =
      d.init.bind Expr.constant? := by
  rw [VarDecl.find?_initval h.slots_nodup hd hslot]
  cases hinit : d.init with
  | none => simp [VarDecl.initval?, hslot, hinit]
  | some init =>
      obtain ⟨_, v, _, _, hv⟩ := hstarts d hd init hinit
      simp [VarDecl.initval?, hslot, hinit, hv]

end Block.Entered

/--
**The initial values of globals.** Let a parsed program be accepted but for the initializers of its
globals. Then it is accepted exactly if each initializer has the type that is declared for the global and
has a value by the evaluator. The table of initial values lists the globals that have an initializer, in
their order and with their slots and values, and looking up the slot of a global gives its value.
-/
theorem Block.initial_values {source : String} {version : Nat} {b b₁ b₂ : Block} {s₁ s₂ : Session}
    {e e' : LogEvent} (hparse : Block.parse source = .ok b)
    (htypes : b.bindTypes (.ofContainer (.empty version)) = ⟨b₁, s₁, .ok ()⟩)
    (hdecls : b₁.allot (s₁.note e) = ⟨b₂, s₂, .ok ()⟩)
    (hothers : (b₂.withoutInitials.checkProgram (s₂.note e')).result.isOk = true) :
    ((b₂.checkProgram (s₂.note e')).result.isOk = true ↔
      ∀ d ∈ Item.variables b₂.items, ∀ init, d.init = some init →
        ∃ t v, d.valueType? = some t ∧ (init.infer s₂.container.lookup).result = .ok t ∧
          init.constant? = some v) ∧
    ((b₂.checkProgram (s₂.note e')).result.isOk = true →
      let c := (b₂.checkProgram (s₂.note e')).state.container
      List.Forall₂ (fun d r => d.slot = some r.global ∧ d.init.bind Expr.constant? = some r.value ∧
          d.valueType? = some r.value.type)
        ((Item.variables b₂.items).filter (·.init.isSome)) c.initvals ∧
      ∀ d ∈ Item.variables b₂.items, ∀ slot, d.slot = some slot →
        c.initialValue? slot = d.init.bind Expr.constant?) ∧
    List.Forall₂ (VarDecl.Becomes s₂.container) (Item.variables b.items) (Item.variables b₂.items) := by
  have hfresh := Block.fresh_of_parse hparse
  have hentered := Block.entered_of_parse hparse htypes hdecls
  have hglobals := Block.Entered.accepts_iff (s := s₂.note e') hentered hothers
  refine ⟨?_, fun hrun => ?_, Item.Becomes.variables (hfresh.becomes htypes hdecls).1⟩
  · rw [hglobals]
    simp only [VarDecl.Starts, Expr.result_infer]
    rfl
  · have hstarts := hglobals.mp hrun
    -- nothing was in the table before
    have hempty := hfresh.initvals_eq htypes hdecls
    have htable := (Block.check_isOk (s := s₂.note e') fun i hi => hentered.ready hi).2 hrun
    rw [show (s₂.note e').container = s₂.container from rfl, hempty, List.nil_append] at htable
    refine ⟨?_, fun d hd slot hslot => ?_⟩
    · rw [htable]
      exact hentered.initvals_listed hstarts
    · rw [Container.initialValue?, htable]
      exact hentered.initval_of_slot hstarts hd hslot

/-- The branch that is not taken reads a global, and the second global has no initial value. -/
def initialised : String := "int a=1?~7:1/b;int b;string s=(2,\"x\");"

set_option maxRecDepth 100000 in
theorem Block.initial_values_initialised :
    ∃ b b₁ b₂ s₁ s₂, Block.parse initialised = .ok b ∧
      b.bindTypes (.ofContainer (.empty 0)) = ⟨b₁, s₁, .ok ()⟩ ∧
      b₁.allot (s₁.note (.typesDone 1)) = ⟨b₂, s₂, .ok ()⟩ ∧
      (b₂.withoutInitials.checkProgram (s₂.note (.typesDone 2))).result.isOk = true ∧
      (b₂.checkProgram (s₂.note (.typesDone 2))).result.isOk = true ∧
      (b₂.checkProgram (s₂.note (.typesDone 2))).state.container.initvals =
        [⟨0, .int (-8)⟩, ⟨2, .string "x"⟩] ∧
      (∀ d ∈ Item.variables b₂.items, ∀ init, d.init = some init →
        ∃ t v, d.valueType? = some t ∧ (init.infer s₂.container.lookup).result = .ok t ∧
          init.constant? = some v) ∧
      ∀ d ∈ Item.variables b₂.items, ∀ slot, d.slot = some slot →
        (b₂.checkProgram (s₂.note (.typesDone 2))).state.container.initialValue? slot =
          d.init.bind Expr.constant? := by
  obtain ⟨b, hparse, hrun⟩ := Block.exists_of_chars initialised (fun b =>
      let r₁ := b.bindTypes (.ofContainer (.empty 0))
      let r₂ := r₁.tree.allot (r₁.state.note (.typesDone 1))
      let r₃ := r₂.tree.checkProgram (r₂.state.note (.typesDone 2))
      r₁.result.isOk && (r₂.result.isOk &&
        ((r₂.tree.withoutInitials.checkProgram (r₂.state.note (.typesDone 2))).result.isOk &&
          (r₃.result.isOk &&
            r₃.state.container.initvals = [⟨0, .int (-8)⟩, ⟨2, .string "x"⟩])))) rfl (by decide +kernel)
  obtain ⟨hok₁, hrest⟩ := Bool.and_eq_true_iff.mp hrun
  obtain ⟨hok₂, hrest⟩ := Bool.and_eq_true_iff.mp hrest
  obtain ⟨hothers, hrest⟩ := Bool.and_eq_true_iff.mp hrest
  obtain ⟨hok, hinitvals⟩ := Bool.and_eq_true_iff.mp hrest
  have htypes := Step.eq_of_isOk hok₁
  have hdecls := Step.eq_of_isOk hok₂
  have hvalues := Block.initial_values hparse htypes hdecls hothers
  exact ⟨b, _, _, _, _, hparse, htypes, hdecls, hothers, hok, of_decide_eq_true hinitvals,
    hvalues.1.mp hok, (hvalues.2.1 hok).2⟩

end Jaf
