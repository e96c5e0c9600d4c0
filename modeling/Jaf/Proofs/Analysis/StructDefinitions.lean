import Jaf.Proofs.Analysis.TypeList
import Jaf.Proofs.Parser.ParsedTrees

/-!
# Entering struct definitions

The first walk over the types of a program enters every struct definition into the table, with no
members yet. `TypeSpec.definitions` lists the definitions in a type, an outer one before those in its
body, and `Session.Registers` says what it is to enter a list of definitions: each one has a name that is
new to the table, and is added at the end.

Entering a definition writes its number into the type. `TypeSpec.numbered` is the type with all these
numbers in it, read off the table afterwards. Entries are only added, so a number that is right once
stays right (`Container.Extends`), and it does not matter when the table is looked at.

If the walk fails, it stops at the first definition in the list that has no name or one that is taken
(`TypeSpec.refusal?`), and exactly those before it have been entered (`Session.StopsEntering`).
-/

namespace Jaf

/-! ## The types inside of a type -/

mutual

/-- A type and the types in its body, the outer one first; a type name alone in a body is left out. -/
@[simp] def TypeSpec.specs : TypeSpec → List TypeSpec
  | ⟨kind, name, number, none, span⟩ => [⟨kind, name, number, none, span⟩]
  | ⟨kind, name, number, some ds, span⟩ => ⟨kind, name, number, some ds, span⟩ :: VarDecl.specsOf ds

/-- The types of members and the types in their bodies. -/
@[simp] def VarDecl.specsOf : List VarDecl → List TypeSpec
  | [] => []
  | ⟨name, type, init, slot, span⟩ :: ds =>
    (if VarDecl.isForward ⟨name, type, init, slot, span⟩ then [] else type.specs) ++ VarDecl.specsOf ds

end

theorem VarDecl.specsOf_cons (d : VarDecl) (ds : List VarDecl) :
    VarDecl.specsOf (d :: ds) = (if d.isForward then [] else d.type.specs) ++ VarDecl.specsOf ds := by
  cases d
  rfl

/-- A type name alone declares nothing. -/
theorem VarDecl.name_of_isForward {d : VarDecl} (h : d.isForward = true) : d.name = none :=
  Option.isNone_iff_eq_none.mp (Bool.and_eq_true_iff.mp h).1

/-- A type stands before the types in its body. -/
theorem TypeSpec.specs_eq_cons (t : TypeSpec) : ∃ us, t.specs = t :: us := by
  obtain ⟨kind, name, number, members, span⟩ := t
  cases members with
  | none => exact ⟨[], rfl⟩
  | some ds => exact ⟨VarDecl.specsOf ds, rfl⟩

/-- The struct definitions in a type, an outer one before those in its body. -/
def TypeSpec.definitions (t : TypeSpec) : List TypeSpec := t.specs.filter (·.members.isSome)

/-- The struct definitions in the types of members. -/
def VarDecl.definitionsOf (ds : List VarDecl) : List TypeSpec :=
  (VarDecl.specsOf ds).filter (·.members.isSome)

theorem TypeSpec.definitions_body (tag : Option String) (ds : List VarDecl) (p : Span) :
    (TypeSpec.body tag ds p).definitions = .body tag ds p :: VarDecl.definitionsOf ds := rfl

namespace TypeSpec.Written

/-- Only structs with a body are entered, and none of them has been yet. -/
theorem isUnregistered_eq {t : TypeSpec} (h : t.Written) : t.isUnregistered = t.members.isSome := by
  cases h with
  | word | named | enum => simp [isUnregistered, TypeSpec.simple, TypeSpec.named]
  | body => rfl

theorem definitions_eq_nil {t : TypeSpec} (h : t.Written) (hm : t.members.isSome = false) :
    t.definitions = [] := by
  cases h with
  | word | named | enum => rfl
  | body => cases hm

end TypeSpec.Written

/-- A type name alone defines nothing, so the definitions of members are those of their types. -/
theorem VarDecl.definitionsOf_cons {d : VarDecl} (hd : d.type.Written) (ds : List VarDecl) :
    VarDecl.definitionsOf (d :: ds) = d.type.definitions ++ VarDecl.definitionsOf ds := by
  rw [definitionsOf, specsOf_cons, List.filter_append]
  split
  next hforward =>
    have hkind : d.type.kind = .typedef := by
      unfold VarDecl.isForward at hforward
      simp_all
    have hm : d.type.members.isSome = false := by
      generalize d.type = t at hd hkind
      cases hd with
      | word | named | enum => rfl
      | body => cases hkind
    rw [hd.definitions_eq_nil hm]
    rfl
  next => rfl

theorem VarDecl.mem_definitionsOf {ds : List VarDecl} (hds : ∀ d ∈ ds, d.type.Written) {t : TypeSpec} :
    t ∈ VarDecl.definitionsOf ds ↔ ∃ d ∈ ds, t ∈ d.type.definitions := by
  induction ds with
  | nil => simp [definitionsOf]
  | cons d ds ih =>
      obtain ⟨hd, hds⟩ := List.forall_mem_cons.mp hds
      simp [definitionsOf_cons hd, ih hds]

/-! ## Numbers in the table -/

/-- The number of the struct that bears the name of a type. -/
def TypeSpec.entryNo? (c : Container) (t : TypeSpec) : Option Nat := t.name.bind c.structNo?

/-- Every struct of a container has the same number in another. -/
def Container.Extends (c c' : Container) : Prop :=
  ∀ name n, c.structNo? name = some n → c'.structNo? name = some n

namespace Container.Extends

theorem refl (c : Container) : c.Extends c := fun _ _ hn => hn

theorem trans {a b c : Container} (h : a.Extends b) (h' : b.Extends c) : a.Extends c :=
  fun name n hn => h' name n (h name n hn)

theorem addStruct (c : Container) (name : String) : c.Extends (c.addStruct name) := by
  intro other n h
  unfold structNo? at h
  rw [structNo?, Container.addStruct, List.findIdx?_append, h]
  rfl

theorem entryNo? {c c' : Container} (h : c.Extends c') {t : TypeSpec} {n : Nat}
    (hn : t.entryNo? c = some n) : t.entryNo? c' = some n := by
  obtain ⟨name, hname, hn⟩ := Option.bind_eq_some_iff.mp hn
  exact Option.bind_eq_some_iff.mpr ⟨name, hname, h name n hn⟩

end Container.Extends

/-- A struct that is new to the table gets the next number. -/
theorem Container.structNo?_addStruct {c : Container} {name : String} (h : c.structNo? name = none) :
    (c.addStruct name).structNo? name = some c.structs.length := by
  unfold structNo? at h
  rw [structNo?, addStruct, List.findIdx?_append, h]
  simp

theorem Container.structNo?_eq_none {c : Container} {name : String} :
    c.structNo? name = none ↔ name ∉ c.structs.map (·.name) := by
  simp [structNo?, List.findIdx?_eq_none_iff]

theorem Container.structNo?_isSome {c : Container} {name : String} :
    (c.structNo? name).isSome = true ↔ name ∈ c.structs.map (·.name) := by
  rw [Option.isSome_iff_ne_none, Ne, structNo?_eq_none, Decidable.not_not]

/-! ## Entering a list of definitions -/

/-- Entering the given definitions, each under a name that is new, leads from one session to another. -/
inductive Session.Registers : Session → List TypeSpec → Session → Prop
  | nil {s : Session} : Registers s [] s
  | cons {s s' : Session} {d : TypeSpec} {ds : List TypeSpec} {name : String} :
      d.name = some name → s.container.structNo? name = none → Registers (s.addStruct name) ds s' →
      Registers s (d :: ds) s'

namespace Session.Registers

theorem append {r s t : Session} {ds es : List TypeSpec} (h : r.Registers ds s)
    (h' : s.Registers es t) : r.Registers (ds ++ es) t := by
  induction h with
  | nil => exact h'
  | cons hname hnew _ ih => exact .cons hname hnew (ih h')

theorem grows {s s' : Session} {ds : List TypeSpec} (h : s.Registers ds s') :
    s.container.Extends s'.container := by
  induction h with
  | nil => exact .refl _
  | cons _ _ _ ih => exact (Container.Extends.addStruct _ _).trans ih

/-- A definition that has been entered has a number, and no struct had it before. -/
theorem entryNo? {s s' : Session} {ds : List TypeSpec} (h : s.Registers ds s') {d : TypeSpec}
    (hd : d ∈ ds) : ∃ n, s.container.structs.length ≤ n ∧ d.entryNo? s'.container = some n := by
  induction h with
  | nil => cases hd
  | @cons s s' e es name hname hnew hrest ih =>
      rcases List.mem_cons.mp hd with rfl | hd
      · refine ⟨s.container.structs.length, Nat.le_refl _, hrest.grows.entryNo? ?_⟩
        exact Option.bind_eq_some_iff.mpr ⟨name, hname, Container.structNo?_addStruct hnew⟩
      · obtain ⟨n, hle, hn⟩ := ih hd
        have hlength : (s.addStruct name).container.structs.length = s.container.structs.length + 1 :=
          List.length_append
        exact ⟨n, by omega, hn⟩

end Session.Registers

/-! ## Where entering stops -/

/-- What is wrong with a struct definition where the given names are taken, if anything is. -/
def TypeSpec.refusal? (taken : List String) (d : TypeSpec) : Option SemanticError :=
  match d.name with
  | none => some ⟨d.span, .anonymousStruct⟩
  | some name => if name ∈ taken then some ⟨d.span, .structRedefined name⟩ else none

/-- Entering definitions stops at one that is refused, and those before it have been entered. -/
def Session.StopsEntering (s : Session) (ds : List TypeSpec) (e : SemanticError) (s' : Session) : Prop :=
  ∃ us d vs, ds = us ++ d :: vs ∧ s.Registers us s' ∧
    d.refusal? (s'.container.structs.map (·.name)) = some e

namespace Session.StopsEntering

variable {s s₁ s' : Session} {ds es : List TypeSpec} {e : SemanticError}

theorem before (h : s.StopsEntering ds e s') (es : List TypeSpec) : s.StopsEntering (ds ++ es) e s' := by
  obtain ⟨us, d, vs, rfl, hus, hd⟩ := h
  exact ⟨us, d, vs ++ es, by simp, hus, hd⟩

theorem after (h : s₁.StopsEntering es e s') (hds : s.Registers ds s₁) :
    s.StopsEntering (ds ++ es) e s' := by
  obtain ⟨us, d, vs, rfl, hus, hd⟩ := h
  exact ⟨ds ++ us, d, vs, by simp, hds.append hus, hd⟩

end Session.StopsEntering

/-! ## Types with their numbers -/

mutual

/-- A type with the numbers of its definitions, as the table has them. -/
def TypeSpec.numbered (c : Container) : TypeSpec → TypeSpec
  | ⟨kind, name, number, none, span⟩ => ⟨kind, name, number, none, span⟩
  | ⟨kind, name, _, some ds, span⟩ =>
    ⟨kind, name, name.bind c.structNo?, some (VarDecl.numberedAll c ds), span⟩

/-- Members whose types have the numbers of their definitions. -/
def VarDecl.numberedAll (c : Container) : List VarDecl → List VarDecl
  | [] => []
  | ⟨name, type, init, slot, span⟩ :: ds =>
    ⟨name, type.numbered c, init, slot, span⟩ :: VarDecl.numberedAll c ds

end

theorem TypeSpec.numbered_of_members {c : Container} {t : TypeSpec} (h : t.members.isSome = false) :
    t.numbered c = t := by
  obtain ⟨kind, name, number, members, span⟩ := t
  cases members with
  | none => rfl
  | some ds => cases h

theorem VarDecl.numberedAll_cons (c : Container) (d : VarDecl) (ds : List VarDecl) :
    VarDecl.numberedAll c (d :: ds) =
      { d with type := d.type.numbered c } :: VarDecl.numberedAll c ds := by
  cases d
  rfl

theorem VarDecl.mem_numberedAll (c : Container) {d : VarDecl} {ds : List VarDecl} (h : d ∈ ds) :
    { d with type := d.type.numbered c } ∈ VarDecl.numberedAll c ds := by
  induction h with
  | head ds =>
      rw [numberedAll_cons]
      exact List.mem_cons_self
  | tail e _ ih =>
      rw [numberedAll_cons]
      exact List.mem_cons_of_mem _ ih

theorem TypeSpec.numbered_kind (c : Container) (t : TypeSpec) : (t.numbered c).kind = t.kind := by
  obtain ⟨kind, name, number, members, span⟩ := t
  cases members <;> rfl

theorem VarDecl.isForward_numbered (c : Container) (d : VarDecl) :
    VarDecl.isForward { d with type := d.type.numbered c } = d.isForward := by
  simp only [VarDecl.isForward, TypeSpec.numbered_kind]

namespace TypeSpec

theorem register_kind (t : TypeSpec) (s : Session) : (t.register s).tree.kind = t.kind := by
  obtain ⟨kind, name, number, members, span⟩ := t
  unfold register
  cases name with
  | none => rfl
  | some text =>
      dsimp only
      split
      · rfl
      · cases members with
        | none => rfl
        | some ds => exact Step.tree_andThen (P := fun u : TypeSpec => u.kind = kind) rfl fun _ => rfl

theorem addsNoName_registerNew : AddsNoName registerNew := by
  intro t s h
  unfold registerNew at h
  split at h
  · have hkind := register_kind t s
    rw [← h]
    exact (Step.tree_andThen (P := fun u : TypeSpec => u.kind = t.kind) hkind fun _ => hkind).symm
  · exact h

/-- What a type is like after its definitions have been entered. -/
def Registered (s : Session) (t t' : TypeSpec) (s' : Session) : Prop :=
  s.Registers t.definitions s' ∧ ∀ c, s'.container.Extends c → t' = t.numbered c

theorem registerMembers_ends {ds : List VarDecl} (hds : ∀ d ∈ ds, d.type.Written)
    (ih : ∀ d ∈ ds, ∀ s, d.type.members.isSome = true → (d.type.register s).Ends
      (fun t' _ s' => Registered s d.type t' s') (s.StopsEntering d.type.definitions)) (s : Session) :
    (registerMembers ds s).Ends
      (fun ds' _ s' => s.Registers (VarDecl.definitionsOf ds) s' ∧
        ∀ c, s'.container.Extends c → ds' = VarDecl.numberedAll c ds)
      (s.StopsEntering (VarDecl.definitionsOf ds)) := by
  induction ds generalizing s with
  | nil =>
      unfold registerMembers
      exact .done ⟨.nil, fun _ _ => rfl⟩
  | cons d ds ihds =>
      obtain ⟨hd, hds⟩ := List.forall_mem_cons.mp hds
      obtain ⟨ihd, ih⟩ := List.forall_mem_cons.mp ih
      have hrest := ihds hds ih
      rw [VarDecl.definitionsOf_cons hd]
      obtain ⟨name, type, init, slot, span⟩ := d
      unfold registerMembers
      rw [TypeSpec.Written.isUnregistered_eq hd]
      split
      next hbody =>
        refine ((ihd s hbody).mono_error fun _ _ hstop => hstop.before _).andThen ?_
        rintro t' _ s₁ ⟨hfirst, ht'⟩
        refine .map ((hrest s₁).mono ?_ fun _ _ hstop => hstop.after hfirst)
        rintro ds' _ s' ⟨hsecond, hds'⟩
        refine ⟨hfirst.append hsecond, fun c hc => ?_⟩
        -- the first member was numbered when the table was shorter
        rw [ht' c (hsecond.grows.trans hc), hds' c hc]
        rfl
      next hbody =>
        have hm : type.members.isSome = false := by simpa using hbody
        rw [hd.definitions_eq_nil hm]
        refine .map ((hrest s).mono ?_ fun _ _ hstop => hstop)
        rintro ds' _ s' ⟨hsecond, hds'⟩
        refine ⟨hsecond, fun c hc => ?_⟩
        rw [hds' c hc, VarDecl.numberedAll_cons, numbered_of_members hm]

theorem Written.register_ends {t : TypeSpec} (h : t.Written) :
    ∀ s, t.members.isSome = true → (t.register s).Ends (fun t' _ s' => Registered s t t' s')
      (s.StopsEntering t.definitions) := by
  induction h with
  | word | named | enum => intro s hbody; cases hbody
  | @body tag ds p _ htypes ih =>
      intro s _
      rw [definitions_body]
      unfold TypeSpec.body TypeSpec.register
      cases tag with
      | none => exact .fail ⟨[], _, _, rfl, .nil, rfl⟩
      | some text =>
          dsimp only
          split
          next htaken =>
            exact .fail ⟨[], _, _, rfl, .nil, if_pos (Container.structNo?_isSome.mp htaken)⟩
          next hnew =>
            -- the struct itself comes before those in its body
            have hnew : s.container.structNo? text = none := by simpa using hnew
            have hself : s.Registers [TypeSpec.body (some text) ds p] (s.addStruct text) :=
              .cons rfl hnew .nil
            refine Step.Ends.andThen (P := fun ds' _ s' =>
              (s.addStruct text).Registers (VarDecl.definitionsOf ds) s' ∧
                ∀ c, s'.container.Extends c → ds' = VarDecl.numberedAll c ds) ?_ ?_
            · exact (registerMembers_ends htypes ih _).mono_error fun _ _ hstop => hstop.after hself
            · rintro ds' _ s' ⟨hds, hds'⟩
              refine .done ⟨hself.append hds, fun c hc => ?_⟩
              have hnumber := (hds.grows.trans hc) _ _ (Container.structNo?_addStruct hnew)
              rw [hds' c hc]
              simp only [numbered, Option.bind_some, hnumber]

theorem Written.registerNew_ends {t : TypeSpec} (h : t.Written) (s : Session) :
    (t.registerNew s).Ends (fun t' _ s' => Registered s t t' s') (s.StopsEntering t.definitions) := by
  unfold registerNew
  rw [h.isUnregistered_eq]
  split
  next hbody => exact (h.register_ends s hbody).andThen fun t' _ s' ht' => .done ht'
  next hbody =>
    have hm : t.members.isSome = false := by simpa using hbody
    refine .done ⟨?_, fun c _ => (numbered_of_members hm).symm⟩
    rw [h.definitions_eq_nil hm]
    exact .nil

/-- **The first walk enters all definitions of a program**, and those before the error if it fails. -/
theorem each_registerNew_ends {ts : List TypeSpec} (hts : ∀ t ∈ ts, t.Written) (s : Session) :
    (Step.each registerNew ts s).Ends
      (fun ts' _ s' => s.Registers (ts.flatMap definitions) s' ∧
        ∀ c, s'.container.Extends c → ts' = ts.map (·.numbered c))
      (s.StopsEntering (ts.flatMap definitions)) := by
  induction ts generalizing s with
  | nil => exact .done ⟨.nil, fun _ _ => rfl⟩
  | cons t ts ih =>
      obtain ⟨ht, hts⟩ := List.forall_mem_cons.mp hts
      refine ((ht.registerNew_ends s).mono_error fun _ _ hstop => hstop.before _).andThen ?_
      rintro t' _ s₁ ⟨hfirst, ht'⟩
      refine .map ((ih hts s₁).mono ?_ fun _ _ hstop => hstop.after hfirst)
      rintro ts' _ s' ⟨hsecond, hts'⟩
      refine ⟨hfirst.append hsecond, fun c hc => ?_⟩
      rw [ht' c (hsecond.grows.trans hc), hts' c hc]
      rfl

end TypeSpec

end Jaf
