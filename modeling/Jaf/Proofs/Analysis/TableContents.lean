import Jaf.Proofs.Analysis.InitialValues
import Jaf.Proofs.Analysis.PassSuccess

/-!
# Tables and the texts they come from

After the first two passes the tables are a function of the text, up to the numbers of structs: every entry
is computed from one declaration, and only the types in it depend on the others (`Container.Holds`). So if
two programs have the same declarations in different orders, their tables have the same entries in different
orders, once the struct numbers of the one are replaced by those of the other
(`Container.Holds.reordered`). The replacement is found by name (`Container.renumbering`).

What does not depend on numbers at all is the same in both: the tables as they are written with the names
of structs (`Container.SameByName`).
-/

namespace Jaf

/-! ## Entries -/

/-- The entry of a struct definition. -/
def TypeSpec.entry (c : Container) (d : TypeSpec) : Struct :=
  ⟨d.name.getD "", d.namedMembers.filterMap (VarDecl.record? c)⟩

/-- The variables of a function: its parameters, and all named variables of its body. -/
def FuncHead.variables (p : FuncHead × Block) : List VarDecl :=
  p.1.params ++ Item.variables p.2.declarations

/-- The entry of a function. -/
def FuncHead.entry (c : Container) (p : FuncHead × Block) : Function :=
  ⟨p.1.name, (p.1.result.code? c).getD (.scalar .void), p.1.params.length,
    (FuncHead.variables p).filterMap (VarDecl.record? c)⟩

section Entries

variable {c : Container}

theorem VarDecl.records_eq {ds : List VarDecl} {vs : List Variable}
    (h : List.Forall₂ (fun d v => d.record? c = some v) ds vs) :
    vs = ds.filterMap (VarDecl.record? c) := by
  induction h with
  | nil => rfl
  | cons hv _ ih => rw [List.filterMap_cons_some hv, ← ih]

theorem Struct.Defines.entry_eq {st : Struct} {d : TypeSpec} (h : st.Defines c d) : d.entry c = st := by
  obtain ⟨name, members⟩ := st
  obtain ⟨hname, hmembers⟩ := h
  rw [TypeSpec.entry, hname, ← VarDecl.records_eq hmembers]
  rfl

theorem FuncHead.Listed.entry_eq {n : Nat} {p p' : FuncHead × Block} {f : Function}
    (h : FuncHead.Listed c n p p' f) : FuncHead.entry c p = f := by
  obtain ⟨name, result, argCount, vars⟩ := f
  have hname : name = p.1.name := h.name.2
  have hargCount : argCount = p.1.params.length := h.argCount
  have hvars : vars = _ := VarDecl.records_eq h.vars.records
  rw [FuncHead.entry, h.result.1, hname, hargCount, hvars]
  rfl

end Entries

/-- The tables hold the entries of the declarations of a program, in their order. -/
structure Container.Holds (c : Container) (b : Block) : Prop where
  structs : c.structs = b.definitions.map (TypeSpec.entry c)
  functions : c.functions = (Item.functions b.items).map (FuncHead.entry c)
  globals : c.globals = (Item.variables b.items).filterMap (VarDecl.record? c)
  wellFormed : c.WellFormed

section Prepared

variable {version : Nat} {b b₁ b₂ : Block} {s₁ s₂ : Session} {e : LogEvent}

/-- The entries of structs are those of the definitions, and stay so when numbers are handed out. -/
theorem Block.Fresh.structs_eq (hb : b.Fresh)
    (htypes : b.bindTypes (.ofContainer (.empty version)) = ⟨b₁, s₁, .ok ()⟩) {c : Container}
    (hc : s₁.container.Beside c) :
    c.structs = b.definitions.map (TypeSpec.entry c) ∧ c.version = version := by
  have hends := Block.bindTypes_ends hb.written (.ofContainer (.empty version))
  rw [htypes] at hends
  obtain ⟨s₀, hregisters, ⟨ws, hwrites, hmem⟩, _⟩ := hends.ok () rfl
  constructor
  · have hdefines := hwrites.defines hregisters hmem
    rw [hc.structs]
    rw [← map_eq_of_forall₂ (f := id) ?_ hdefines, List.map_id]
    intro st d hd
    refine (Struct.Defines.entry_eq ⟨hd.1, hd.2.imp fun m v hv => ?_⟩).symm
    rw [hc.alike.record?]
    exact hv
  · rw [hc.version, hwrites.alike.version, hregisters.container_eq]
    rfl

/-- **After the first two passes the tables hold the entries of the declarations.** -/
theorem Block.Fresh.holds (hb : b.Fresh)
    (htypes : b.bindTypes (.ofContainer (.empty version)) = ⟨b₁, s₁, .ok ()⟩)
    (hdecls : b₁.allot (s₁.note e) = ⟨b₂, s₂, .ok ()⟩) :
    s₂.container.Holds b ∧ s₂.container.version = version := by
  obtain ⟨_, hbeside⟩ := hb.becomes htypes hdecls
  obtain ⟨hstructs, hversion⟩ := hb.structs_eq htypes hbeside
  obtain ⟨hlength, hlength'⟩ := hb.functions_length htypes hdecls
  refine ⟨⟨hstructs, ?_, ?_, hb.wellFormed htypes hdecls⟩, hversion⟩
  · refine List.ext_getElem (by rw [List.length_map, hlength]) fun n hn hn' => ?_
    have hp := List.getElem?_eq_getElem (hlength ▸ hn)
    have hp' := List.getElem?_eq_getElem (hlength' ▸ hn)
    have hlisted := hb.functions_listed htypes hdecls hp hp' (List.getElem?_eq_getElem hn)
    rw [List.getElem_map, hlisted.entry_eq]
  · exact VarDecl.records_eq (hb.globals_listed htypes hdecls).records

end Prepared

/-! ## The declarations of a program in another order -/

section Perm

variable {b b' : Block}

theorem Block.declarations_perm (h : b'.items.Perm b.items) :
    b'.declarations.Perm b.declarations := by
  obtain ⟨items, p⟩ := b
  obtain ⟨items', p'⟩ := b'
  rw [Block.declarations, Block.declarations, Item.declarationsOf_eq_flatMap,
    Item.declarationsOf_eq_flatMap]
  exact h.flatMap_right _

theorem Block.specs_perm (h : b'.items.Perm b.items) : b'.specs.Perm b.specs :=
  ((Block.declarations_perm h).flatMap_right _).flatMap_right _

theorem Block.definitions_perm (h : b'.items.Perm b.items) : b'.definitions.Perm b.definitions :=
  (Block.specs_perm h).filter _

theorem Block.Fresh.perm (hb : b.Fresh) (h : b'.items.Perm b.items) : b'.Fresh where
  written := fun i hi => hb.written i ((Block.declarations_perm h).mem_iff.mp hi)
  declares := fun i hi => hb.declares i (h.mem_iff.mp hi)

theorem TypeSpec.Enterable.perm {ds ds' : List TypeSpec} (h : TypeSpec.Enterable ds)
    (hds : ds'.Perm ds) : TypeSpec.Enterable ds' where
  named := fun d hd => h.named d (hds.mem_iff.mp hd)
  names := (hds.map _).nodup_iff.mpr h.names

theorem TypeSpec.Known.perm {ds ds' ts ts' : List TypeSpec} (h : TypeSpec.Known ds ts)
    (hds : ds'.Perm ds) (hts : ts'.Perm ts) : TypeSpec.Known ds' ts' where
  names := fun t ht hkind => (hds.map _).mem_iff.mpr (h.names t (hts.mem_iff.mp ht) hkind)
  enums := fun t ht => h.enums t (hts.mem_iff.mp ht)

theorem Item.Enterable.perm {is is' : List Item} (h : Item.Enterable is) (his : is'.Perm is) :
    Item.Enterable is' where
  functionNames := ((his.filterMap _).map _).nodup_iff.mpr h.functionNames
  globalNames := ((his.filterMap _).map _).nodup_iff.mpr h.globalNames
  params := fun p hp => h.params p ((his.filterMap _).mem_iff.mp hp)
  flat := fun p hp => h.flat p ((his.filterMap _).mem_iff.mp hp)

/-- **Whether declarations are consistent does not depend on their order.** -/
theorem Block.Consistent.perm (hb : b.Consistent) (h : b'.items.Perm b.items) : b'.Consistent where
  definitions := hb.definitions.perm (Block.definitions_perm h)
  types := hb.types.perm (Block.definitions_perm h) (Block.specs_perm h)
  items := hb.items.perm h

end Perm

/-! ## Other struct numbers -/

/-- The number that a struct of one container has in another, found by its name. -/
def Container.renumbering (c c' : Container) (n : Nat) : Nat :=
  (c.structs[n]?.bind fun st => c'.structNo? st.name).getD 0

/-- Two containers have the same entries in different orders, with other struct numbers. -/
structure Container.Reordered (c c' : Container) : Prop where
  structs : c'.structs.Perm (c.structs.map (Struct.renumber (c.renumbering c')))
  functions : c'.functions.Perm (c.functions.map (Function.renumber (c.renumbering c')))
  globals : c'.globals.Perm (c.globals.map (Variable.renumber (c.renumbering c')))

section Renumbering

variable {c c' : Container}

theorem Container.structNo?_name {name : String} {n : Nat} (h : c.structNo? name = some n) :
    ∃ st, c.structs[n]? = some st ∧ st.name = name := by
  obtain ⟨hn, hname, _⟩ := List.findIdx?_eq_some_iff_getElem.mp h
  exact ⟨_, List.getElem?_eq_getElem hn, of_decide_eq_true hname⟩

/-- Names are looked up in the other container by replacing numbers. -/
theorem Container.structNo?_renumbering
    (hnames : (c'.structs.map (·.name)).Perm (c.structs.map (·.name))) (name : String) :
    c'.structNo? name = (c.structNo? name).map (c.renumbering c') := by
  cases hn : c.structNo? name with
  | none =>
      rw [Container.structNo?_eq_none, ← hnames.mem_iff, ← Container.structNo?_eq_none] at hn
      rw [hn]
      rfl
  | some n =>
      obtain ⟨st, hst, rfl⟩ := Container.structNo?_name hn
      have hmem : st.name ∈ c'.structs.map (·.name) :=
        hnames.mem_iff.mpr (List.mem_map.mpr ⟨st, List.mem_of_getElem? hst, rfl⟩)
      obtain ⟨n', hn'⟩ : ∃ n', c'.structNo? st.name = some n' := by
        rw [← Option.isSome_iff_exists, Option.isSome_iff_ne_none, Ne, Container.structNo?_eq_none]
        exact fun h => h hmem
      rw [Option.map_some, Container.renumbering, hst, Option.bind_some, hn']
      rfl

theorem TypeSpec.code?_renumber {ρ : Nat → Nat}
    (hρ : ∀ name, c'.structNo? name = (c.structNo? name).map ρ) (t : TypeSpec) :
    t.code? c' = (t.code? c).map (TypeCode.renumber ρ) := by
  have hentry : t.entryNo? c' = (t.entryNo? c).map ρ := by
    unfold TypeSpec.entryNo?
    cases t.name with
    | none => rfl
    | some name => exact hρ name
  unfold TypeSpec.code?
  cases t.kind with
  | void | int | float | string | enum => rfl
  | struct | typedef =>
      dsimp only
      rw [hentry]
      cases t.entryNo? c <;> rfl

variable {ρ : Nat → Nat} (hversion : c'.version = c.version)
  (hρ : ∀ name, c'.structNo? name = (c.structNo? name).map ρ)

include hversion hρ

theorem VarDecl.record?_renumber (d : VarDecl) :
    d.record? c' = (d.record? c).map (Variable.renumber ρ) := by
  unfold VarDecl.record?
  rw [TypeSpec.code?_renumber hρ]
  cases d.name with
  | none => rfl
  | some name =>
      rw [Option.bind_some, Option.bind_some, Option.map_map, Option.map_map]
      congr 1
      funext t
      simp [Container.newVariable, Container.hasSecondNames, Variable.renumber, hversion]

theorem VarDecl.records_renumber (ds : List VarDecl) :
    ds.filterMap (VarDecl.record? c') =
      (ds.filterMap (VarDecl.record? c)).map (Variable.renumber ρ) := by
  rw [List.map_filterMap]
  exact List.filterMap_congr fun d _ => VarDecl.record?_renumber hversion hρ d

theorem TypeSpec.entry_renumber (d : TypeSpec) : d.entry c' = (d.entry c).renumber ρ := by
  rw [TypeSpec.entry, VarDecl.records_renumber hversion hρ]
  rfl

theorem FuncHead.entry_renumber (p : FuncHead × Block) :
    FuncHead.entry c' p = (FuncHead.entry c p).renumber ρ := by
  rw [FuncHead.entry, VarDecl.records_renumber hversion hρ, TypeSpec.code?_renumber hρ]
  unfold FuncHead.entry Function.renumber
  cases p.1.result.code? c <;> rfl

end Renumbering

/-- **The same declarations in another order give the same entries in another order.** -/
theorem Container.Holds.reordered {c c' : Container} {b b' : Block} (h : c.Holds b) (h' : c'.Holds b')
    (hperm : b'.items.Perm b.items) (hversion : c'.version = c.version) : c.Reordered c' := by
  have hdefinitions := Block.definitions_perm hperm
  have hnames : (c'.structs.map (·.name)).Perm (c.structs.map (·.name)) := by
    rw [h.structs, h'.structs, List.map_map, List.map_map]
    exact hdefinitions.map fun d => d.name.getD ""
  have hρ := Container.structNo?_renumbering hnames
  refine ⟨?_, ?_, ?_⟩
  · rw [h'.structs, h.structs, List.map_map]
    refine (hdefinitions.map _).trans (.of_eq (List.map_congr_left fun d _ => ?_))
    exact TypeSpec.entry_renumber hversion hρ d
  · rw [h'.functions, h.functions, List.map_map]
    refine ((hperm.filterMap _).map _).trans (.of_eq (List.map_congr_left fun p _ => ?_))
    exact FuncHead.entry_renumber hversion hρ p
  · rw [h'.globals, h.globals, ← VarDecl.records_renumber hversion hρ]
    exact (hperm.filterMap _).filterMap _

/-- What is found under a name is found under it after reordering, if no two entries have the same name. -/
theorem findIdx?_of_perm {β : Type} {name : β → String} {g : β → β} {entries entries' : List β}
    (hperm : entries'.Perm (entries.map g)) (hname : ∀ b, name (g b) = name b)
    (hnodup : (entries'.map name).Nodup) {key : String} {n : Nat} {b : β}
    (hn : entries.findIdx? (fun x => decide (name x = key)) = some n) (hb : entries[n]? = some b) :
    ∃ n', entries'.findIdx? (fun x => decide (name x = key)) = some n' ∧ entries'[n']? = some (g b) := by
  obtain ⟨hlt, hkey, _⟩ := List.findIdx?_eq_some_iff_getElem.mp hn
  obtain ⟨_, rfl⟩ := List.getElem?_eq_some_iff.mp hb
  have hmem : g entries[n] ∈ entries' :=
    hperm.mem_iff.mpr (List.mem_map.mpr ⟨_, List.getElem_mem hlt, rfl⟩)
  obtain ⟨n', hn'⟩ := List.getElem?_of_mem hmem
  have hfind := findIdx?_of_nodup hnodup hn'
  rw [hname, of_decide_eq_true hkey] at hfind
  exact ⟨n', hfind, hn'⟩

/-- All that one container has is in the other, under the same names. -/
theorem Container.Reordered.translates {c c' : Container} (h : c.Reordered c') (hc : c.WellFormed)
    (hc' : c'.WellFormed) : c.Translates (c.renumbering c') c' where
  structs := by
    intro n st hst
    have hn := findIdx?_of_nodup hc.structNames hst
    obtain ⟨n', hn', hst'⟩ := findIdx?_of_perm h.structs (fun _ => rfl) hc'.structNames hn hst
    have hnumber : c.renumbering c' n = n' := by
      rw [Container.renumbering, hst, Option.bind_some, Container.structNo?, hn']
      rfl
    rw [hnumber]
    exact hst'
  functions := fun hn hf => findIdx?_of_perm h.functions (fun _ => rfl) hc'.functionNames hn hf
  globals := fun hn hv => findIdx?_of_perm h.globals (fun _ => rfl) hc'.globalNames hn hv

/-! ## Tables with names in the place of numbers -/

/-- A type code with the name of its struct. -/
def TypeCode.spelling (structs : List Struct) (t : TypeCode) : DataKind × Option String :=
  (t.data, t.structNo.bind fun n => structs[n]?.map (·.name))

/-- A variable with the name of the struct of its type. -/
def Variable.spelling (structs : List Struct) (v : Variable) :
    String × Option String × DataKind × Option String :=
  (v.name, v.secondName, v.type.spelling structs)

/-- A struct with the names of the structs in it. -/
def Struct.spelling (structs : List Struct) (s : Struct) :
    String × List (String × Option String × DataKind × Option String) :=
  (s.name, s.members.map (Variable.spelling structs))

/-- A function with the names of the structs in it. -/
def Function.spelling (structs : List Struct) (f : Function) :
    String × (DataKind × Option String) × Nat ×
      List (String × Option String × DataKind × Option String) :=
  (f.name, f.result.spelling structs, f.argCount, f.vars.map (Variable.spelling structs))

/-- An initial value with the name of its global. -/
def Initval.spelling (globals : List Variable) (r : Initval) : Option String × Value :=
  (globals[r.global]?.map (·.name), r.value)

/-- Two containers hold the same, but for the order, if structs and globals are given by their names. -/
structure Container.SameByName (c c' : Container) : Prop where
  structs : (c.structs.map (Struct.spelling c.structs)).Perm
    (c'.structs.map (Struct.spelling c'.structs))
  functions : (c.functions.map (Function.spelling c.structs)).Perm
    (c'.functions.map (Function.spelling c'.structs))
  globals : (c.globals.map (Variable.spelling c.structs)).Perm
    (c'.globals.map (Variable.spelling c'.structs))
  initvals : (c.initvals.map (Initval.spelling c.globals)).Perm
    (c'.initvals.map (Initval.spelling c'.globals))

section Spelling

variable {c c' : Container} {ρ : Nat → Nat} (h : c.Translates ρ c')

include h

/-- A struct has the same name in both containers, so its types are spelt in the same way. -/
theorem TypeCode.spelling_renumber {t : TypeCode} (ht : t.Within c.structs.length) :
    (t.renumber ρ).spelling c'.structs = t.spelling c.structs := by
  unfold TypeCode.spelling TypeCode.renumber
  cases hn : t.structNo with
  | none => rfl
  | some n =>
      have hst := List.getElem?_eq_getElem (ht.bound n hn)
      simp [hst, h.structs hst, Struct.renumber]

theorem Variable.spelling_renumber {v : Variable} (hv : v.Within c.version c.structs.length) :
    (v.renumber ρ).spelling c'.structs = v.spelling c.structs := by
  unfold Variable.spelling
  rw [← TypeCode.spelling_renumber h hv.type]
  rfl

theorem Variable.spelling_renumberAll {vs : List Variable}
    (hvs : ∀ v ∈ vs, v.Within c.version c.structs.length) :
    (vs.map (Variable.renumber ρ)).map (Variable.spelling c'.structs) =
      vs.map (Variable.spelling c.structs) := by
  rw [List.map_map]
  exact List.map_congr_left fun v hv => Variable.spelling_renumber h (hvs v hv)

theorem Struct.spelling_renumber {st : Struct}
    (hst : ∀ v ∈ st.members, v.Within c.version c.structs.length) :
    (st.renumber ρ).spelling c'.structs = st.spelling c.structs := by
  unfold Struct.spelling
  rw [← Variable.spelling_renumberAll h hst]
  rfl

theorem Function.spelling_renumber {f : Function} (hf : f.Within c.version c.structs.length) :
    (f.renumber ρ).spelling c'.structs = f.spelling c.structs := by
  unfold Function.spelling
  rw [← Variable.spelling_renumberAll h hf.vars, ← TypeCode.spelling_renumber h hf.result]
  rfl

end Spelling

/-- Entries that are spelt in the same way make tables that are. -/
theorem map_perm_of_reordered {α β : Type} {g : α → α} {spell spell' : α → β} {as as' : List α}
    (hperm : as'.Perm (as.map g)) (hspell : ∀ a ∈ as, spell' (g a) = spell a) :
    (as.map spell).Perm (as'.map spell') := by
  have hsame : as.map (spell' ∘ g) = as.map spell := List.map_congr_left hspell
  have hmap := hperm.map spell'
  rw [List.map_map, hsame] at hmap
  exact hmap.symm

/-- Tables that are reordered hold the same by name. -/
theorem Container.Reordered.spellings {c c' : Container} (h : c.Reordered c') (hc : c.WellFormed)
    (hc' : c'.WellFormed) :
    (c.structs.map (Struct.spelling c.structs)).Perm (c'.structs.map (Struct.spelling c'.structs)) ∧
      (c.functions.map (Function.spelling c.structs)).Perm
        (c'.functions.map (Function.spelling c'.structs)) ∧
      (c.globals.map (Variable.spelling c.structs)).Perm
        (c'.globals.map (Variable.spelling c'.structs)) := by
  have htranslates := h.translates hc hc'
  refine ⟨?_, ?_, ?_⟩
  · exact map_perm_of_reordered h.structs fun st hst =>
      Struct.spelling_renumber htranslates (hc.members st hst)
  · exact map_perm_of_reordered h.functions fun f hf =>
      Function.spelling_renumber htranslates (hc.functions f hf)
  · exact map_perm_of_reordered h.globals fun v hv =>
      Variable.spelling_renumber htranslates (hc.globals v hv)

end Jaf
