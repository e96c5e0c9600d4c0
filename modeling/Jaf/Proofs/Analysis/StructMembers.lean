import Jaf.Proofs.Analysis.StructDefinitions

/-!
# Binding type names and writing members

The second walk gives every type name the number of its struct and writes the members of each struct.
All of this is read off the struct table as the first walk left it, since writing members changes
neither the names in it nor their order (`Container.Alike`). So one container stands for all moments of
the walk: `TypeSpec.code?` is what a written type means by it, and `TypeSpec.Resolves` is what becomes of
a type. `Session.Writes` says what it is to write the members of a list of structs.

Bodies are written from the inside out, so the structs are written in another order than they were
entered in. It only matters that each of them is written, and what is written.
-/

namespace Jaf

/-! ## What types mean -/

/-- The type code that a written type stands for, by the names in the struct table. -/
def TypeSpec.code? (c : Container) (t : TypeSpec) : Option TypeCode :=
  match t.kind with
  | .void => some (.scalar .void)
  | .int => some (.scalar .int)
  | .float => some (.scalar .float)
  | .string => some (.scalar .string)
  | .struct | .typedef => (t.entryNo? c).map .struct
  | .enum => none

/-- The record of a member, if it has a name and its type means something. -/
def VarDecl.record? (c : Container) (d : VarDecl) : Option Variable :=
  d.name.bind fun name => (d.type.code? c).map (c.newVariable name)

/-- The members of a struct definition that have names. -/
def TypeSpec.namedMembers (t : TypeSpec) : List VarDecl :=
  (t.members.getD []).filter (·.name.isSome)

/-- The records are those of the named members of a struct definition, in their order. -/
def TypeSpec.Lists (c : Container) (t : TypeSpec) (records : List Variable) : Prop :=
  List.Forall₂ (fun d v => d.record? c = some v) t.namedMembers records

/--
What becomes of a type: a word stays what it is, and a struct or a type name is a struct with the number
of the entry that bears its name. Nothing becomes of an enumeration.
-/
def TypeSpec.Resolves (c : Container) (t t' : TypeSpec) : Prop :=
  t'.name = t.name ∧ t'.span = t.span ∧
    (t.kind.isWord = true ∧ t'.kind = t.kind ∨
      (t.kind = .struct ∨ t.kind = .typedef) ∧ t'.kind = .struct ∧
        ∃ n, t.entryNo? c = some n ∧ t'.structNo = some n)

namespace TypeSpec.Resolves

variable {c : Container} {t t' : TypeSpec}

theorem kind_ne_typedef (h : t.Resolves c t') : t'.kind ≠ .typedef := by
  rcases h.2.2 with ⟨hword, hkind⟩ | ⟨_, hkind, _⟩
  · rw [hkind]
    rintro hnamed
    rw [hnamed] at hword
    cases hword
  · rw [hkind]
    exact TypeKind.noConfusion

/-- A type is encoded as what it means. -/
theorem encode (h : t.Resolves c t') : ∃ code, t.code? c = some code ∧ t'.encode = .ok code := by
  rcases h.2.2 with ⟨hword, hkind⟩ | ⟨hnamed, hkind, n, hn, hn'⟩
  · unfold code? TypeSpec.encode
    rw [hkind]
    cases hk : t.kind with
    | void | int | float | string => exact ⟨_, rfl, rfl⟩
    | struct | enum | typedef => rw [hk] at hword; cases hword
  · refine ⟨.struct n, ?_, ?_⟩
    · rcases hnamed with hk | hk <;> simp [code?, hk, hn]
    · simp [TypeSpec.encode, hkind, hn']

end TypeSpec.Resolves

/-! ## Containers with the same names -/

/-- The structs have the same names in the same order. -/
structure Container.Alike (c c' : Container) : Prop where
  version : c'.version = c.version
  names : c'.structs.map (·.name) = c.structs.map (·.name)

namespace Container

theorem structNo?_eq (c : Container) (name : String) :
    c.structNo? name = (c.structs.map (·.name)).findIdx? (· = name) := by
  simp [structNo?, List.findIdx?_map, Function.comp_def]

namespace Alike

theorem refl (c : Container) : c.Alike c := ⟨rfl, rfl⟩

theorem trans {a b c : Container} (h : a.Alike b) (h' : b.Alike c) : a.Alike c :=
  ⟨h'.version.trans h.version, h'.names.trans h.names⟩

theorem structNo? {c c' : Container} (h : c.Alike c') : c'.structNo? = c.structNo? := by
  funext name
  rw [structNo?_eq, structNo?_eq, h.names]

theorem newVariable {c c' : Container} (h : c.Alike c') : c'.newVariable = c.newVariable := by
  funext name t
  simp [Container.newVariable, hasSecondNames, h.version]

theorem setMembers (c : Container) (n : Nat) (members : List Variable) :
    c.Alike (c.setMembers n members) := by
  refine ⟨rfl, List.ext_getElem? fun i => ?_⟩
  simp only [Container.setMembers, List.getElem?_map, List.getElem?_modify]
  cases c.structs[i]? with
  | none => rfl
  | some st => simp only [Option.map_some]; split <;> rfl

end Alike

end Container

/-! ## Writing the members of a list of structs -/

/--
Writing the members of the given definitions, each at the number of its name, leads from one session to
another. Names and types mean what they mean by the container.
-/
inductive Session.Writes (c : Container) : Session → List TypeSpec → Session → Prop
  | nil {s : Session} : Writes c s [] s
  | cons {s s' : Session} {d : TypeSpec} {ds : List TypeSpec} {n : Nat} {records : List Variable} :
      d.entryNo? c = some n → d.Lists c records → Writes c (s.setMembers n records) ds s' →
      Writes c s (d :: ds) s'

namespace Session.Writes

variable {c : Container}

theorem append {r s t : Session} {ds es : List TypeSpec} (h : r.Writes c ds s)
    (h' : s.Writes c es t) : r.Writes c (ds ++ es) t := by
  induction h with
  | nil => exact h'
  | cons hn hlists _ ih => exact .cons hn hlists (ih h')

theorem alike {s s' : Session} {ds : List TypeSpec} (h : s.Writes c ds s') :
    s.container.Alike s'.container := by
  induction h with
  | nil => exact .refl _
  | cons _ _ _ ih => exact (Container.Alike.setMembers _ _ _).trans ih

end Session.Writes

/-- All of the given definitions have been written, in whatever order. -/
def Session.WritesAll (c : Container) (s : Session) (ds : List TypeSpec) (s' : Session) : Prop :=
  ∃ ws, s.Writes c ws s' ∧ ∀ d, d ∈ ws ↔ d ∈ ds

namespace Session.WritesAll

variable {c : Container}

theorem nil {s : Session} : s.WritesAll c [] s := ⟨[], .nil, fun _ => .rfl⟩

theorem append {r s t : Session} {ds es : List TypeSpec} (h : r.WritesAll c ds s)
    (h' : s.WritesAll c es t) : r.WritesAll c (ds ++ es) t := by
  obtain ⟨ws, hws, hmem⟩ := h
  obtain ⟨ws', hws', hmem'⟩ := h'
  refine ⟨ws ++ ws', hws.append hws', fun d => ?_⟩
  rw [List.mem_append, List.mem_append, hmem, hmem']

theorem alike {s s' : Session} {ds : List TypeSpec} (h : s.WritesAll c ds s') :
    s.container.Alike s'.container := by
  obtain ⟨ws, hws, _⟩ := h
  exact hws.alike

end Session.WritesAll

/-! ## Where writing stops -/

/-- What is wrong with a type where the given structs are known, if anything is. -/
def TypeSpec.complaint? (known : List String) (t : TypeSpec) : Option SemanticError :=
  match t.kind with
  | .enum => some ⟨t.span, .unsupportedType .enum⟩
  | .typedef =>
    if t.name ∈ known.map some then none else some ⟨t.span, .unknownType (t.name.getD "")⟩
  | _ => none

theorem TypeSpec.entryNo?_eq_some {c : Container} {t : TypeSpec} {n : Nat} (h : t.entryNo? c = some n) :
    t.name ∈ (c.structs.map (·.name)).map some := by
  obtain ⟨name, hname, hn⟩ := Option.bind_eq_some_iff.mp h
  rw [hname]
  exact List.mem_map_of_mem (Container.structNo?_isSome.mp (by rw [hn]; rfl))

/-- Nothing is wrong with a type that becomes something. -/
theorem TypeSpec.Resolves.complaint? {c : Container} {t t' : TypeSpec} (h : t.Resolves c t') :
    t.complaint? (c.structs.map (·.name)) = none := by
  unfold TypeSpec.complaint?
  rcases h.2.2 with ⟨hword, _⟩ | ⟨hkind | hkind, _, n, hn, _⟩
  · cases hk : t.kind with
    | enum | typedef => rw [hk] at hword; cases hword
    | _ => rfl
  · rw [hkind]
  · rw [hkind]
    exact if_pos (TypeSpec.entryNo?_eq_some hn)

/-- What is wrong with the first of the types that something is wrong with. -/
def TypeSpec.FirstComplaint (known : List String) (ts : List TypeSpec) (e : SemanticError) : Prop :=
  ∃ us t vs, ts = us ++ t :: vs ∧ (∀ u ∈ us, u.complaint? known = none) ∧ t.complaint? known = some e

/--
Going through types and writing their structs stops at the first type that something is wrong with, and
only structs among these types have been written.
-/
def Session.StopsWriting (c : Container) (s : Session) (ts : List TypeSpec) (e : SemanticError)
    (s' : Session) : Prop :=
  TypeSpec.FirstComplaint (c.structs.map (·.name)) ts e ∧
    ∃ ws, s.Writes c ws s' ∧ ∀ d ∈ ws, d ∈ ts.filter (·.members.isSome)

namespace Session.StopsWriting

variable {c : Container} {s s₁ s' : Session} {ts us : List TypeSpec} {e : SemanticError}

/-- Going through a single type that something is wrong with stops there. -/
theorem here {t : TypeSpec} (h : t.complaint? (c.structs.map (·.name)) = some e) :
    s.StopsWriting c [t] e s :=
  ⟨⟨[], t, [], rfl, by simp, h⟩, [], .nil, by simp⟩

theorem before (h : s.StopsWriting c ts e s') (us : List TypeSpec) : s.StopsWriting c (ts ++ us) e s' := by
  obtain ⟨⟨as, t, bs, rfl, has, ht⟩, ws, hws, hmem⟩ := h
  refine ⟨⟨as, t, bs ++ us, by simp, has, ht⟩, ws, hws, fun d hd => ?_⟩
  rw [List.filter_append]
  exact List.mem_append_left _ (hmem d hd)

theorem after (h : s₁.StopsWriting c ts e s')
    (hus : ∀ u ∈ us, u.complaint? (c.structs.map (·.name)) = none) {ws : List TypeSpec}
    (hws : s.Writes c ws s₁) (hmem : ∀ d ∈ ws, d ∈ us.filter (·.members.isSome)) :
    s.StopsWriting c (us ++ ts) e s' := by
  obtain ⟨⟨as, t, bs, rfl, has, ht⟩, ws', hws', hmem'⟩ := h
  refine ⟨⟨us ++ as, t, bs, by simp, List.forall_mem_append.mpr ⟨hus, has⟩, ht⟩, ws ++ ws',
    hws.append hws', ?_⟩
  rw [List.filter_append]
  exact List.forall_mem_append.mpr ⟨fun d hd => List.mem_append_left _ (hmem d hd),
    fun d hd => List.mem_append_right _ (hmem' d hd)⟩

end Session.StopsWriting

namespace TypeSpec

variable {c : Container}

/-- What binding a type does: its structs are written, and it and the types in it are resolved. -/
def Bound (c : Container) (s : Session) (t t' : TypeSpec) (s' : Session) : Prop :=
  s.WritesAll c t.definitions s' ∧ List.Forall₂ (Resolves c) t.specs t'.specs

/-- The type itself comes first among those that are resolved. -/
theorem resolves_of_specs {t t' : TypeSpec} (h : List.Forall₂ (Resolves c) t.specs t'.specs) :
    t.Resolves c t' := by
  obtain ⟨us, hus⟩ := t.specs_eq_cons
  obtain ⟨us', hus'⟩ := t'.specs_eq_cons
  rw [hus, hus'] at h
  exact (List.forall₂_cons.mp h).1

theorem complaint?_of_resolves {us us' : List TypeSpec} (h : List.Forall₂ (Resolves c) us us') :
    ∀ u ∈ us, u.complaint? (c.structs.map (·.name)) = none := by
  induction h with
  | nil => intro u hu; cases hu
  | cons hu _ ih => exact List.forall_mem_cons.mpr ⟨hu.complaint?, ih⟩

/-- Where going on after a type stops. -/
theorem Bound.stopsWriting {s s₁ s' : Session} {t t' : TypeSpec} {ts : List TypeSpec} {e : SemanticError}
    (h : Bound c s t t' s₁) (hstop : s₁.StopsWriting c ts e s') :
    s.StopsWriting c (t.specs ++ ts) e s' := by
  obtain ⟨⟨ws, hws, hmem⟩, hspecs⟩ := h
  exact hstop.after (complaint?_of_resolves hspecs) hws fun d hd => (hmem d).mp hd

theorem memberRecord_eq_ok {c' : Container} (hc : c.Alike c') {d : VarDecl} {t' : TypeSpec}
    (h : d.type.Resolves c t') :
    ∃ records, memberRecord c' { d with type := t' } = .ok records ∧
      List.Forall₂ (fun d v => d.record? c = some v) ([d].filter (·.name.isSome)) records := by
  obtain ⟨code, hcode, hencode⟩ := h.encode
  unfold memberRecord
  cases hname : d.name with
  | none => exact ⟨[], rfl, by simp [hname]⟩
  | some name =>
      refine ⟨[c.newVariable name code], ?_, ?_⟩
      · simp only [hencode, hc.newVariable]
        rfl
      · simp [hname, VarDecl.record?, hcode]

theorem bindMembers_ends {bind : TypeSpec → Session → Step Session TypeSpec Unit} {ds : List VarDecl}
    (hds : ∀ d ∈ ds, d.type.Written)
    (hbind : ∀ d ∈ ds, ∀ s, c.Alike s.container → (bind (d.type.numbered c) s).Ends
      (fun t' _ s' => Bound c s d.type t' s') (s.StopsWriting c d.type.specs))
    {s : Session} (hs : c.Alike s.container) :
    (bindMembers bind (VarDecl.numberedAll c ds) s).Ends
      (fun ds' records s' =>
        s.WritesAll c (VarDecl.definitionsOf ds) s' ∧
        List.Forall₂ (Resolves c) (VarDecl.specsOf ds) (VarDecl.specsOf ds') ∧
        List.Forall₂ (fun d v => d.record? c = some v) (ds.filter (·.name.isSome)) records)
      (s.StopsWriting c (VarDecl.specsOf ds)) := by
  induction ds generalizing s with
  | nil => exact .done ⟨.nil, .nil, .nil⟩
  | cons d ds ih =>
      obtain ⟨hd, hds⟩ := List.forall_mem_cons.mp hds
      obtain ⟨hfirst, hrest⟩ := List.forall_mem_cons.mp hbind
      rw [VarDecl.numberedAll_cons, bindMembers, VarDecl.isForward_numbered]
      split
      next hf =>
        -- a type name alone is passed over
        refine .map ((ih hds hrest hs).mono ?_ fun _ _ hstop => ?_)
        · rintro ds' records s' ⟨hws, hspecs, hrecords⟩
          rw [VarDecl.definitionsOf, VarDecl.specsOf_cons, VarDecl.specsOf_cons, hf,
            VarDecl.isForward_numbered, hf, List.filter_cons, VarDecl.name_of_isForward hf]
          exact ⟨hws, hspecs, hrecords⟩
        · rw [VarDecl.specsOf_cons, if_pos hf]
          exact hstop
      next hf =>
        have hsplit : VarDecl.specsOf (d :: ds) = d.type.specs ++ VarDecl.specsOf ds := by
          rw [VarDecl.specsOf_cons, if_neg hf]
        rw [hsplit]
        refine ((hfirst s hs).mono_error fun _ _ hstop => hstop.before _).andThen ?_
        rintro t' _ s₁ ⟨hwrites, hspecs⟩
        have hresolves := resolves_of_specs hspecs
        have hs₁ := hs.trans hwrites.alike
        obtain ⟨vs, hvs, hrecord⟩ := memberRecord_eq_ok hs₁ hresolves
        dsimp only
        rw [hvs]
        refine Step.Ends.andThen ((ih hds hrest hs₁).mono_error
          fun _ _ hstop => Bound.stopsWriting ⟨hwrites, hspecs⟩ hstop) ?_
        rintro ds' others s' ⟨hwrites', hspecs', hrecords⟩
        refine .done ⟨?_, ?_, ?_⟩
        · rw [VarDecl.definitionsOf_cons hd]
          exact hwrites.append hwrites'
        · -- the type is bound now, so the member is still no type name alone
          have hbound' : VarDecl.isForward { d with type := t' } = false := by
            simp [VarDecl.isForward, hresolves.kind_ne_typedef]
          rw [VarDecl.specsOf_cons, hbound', if_neg Bool.false_ne_true]
          exact List.rel_append hspecs hspecs'
        · rw [← List.singleton_append, List.filter_append]
          exact List.rel_append hrecord hrecords

theorem height_le_heightOf {d : VarDecl} {ds : List VarDecl} (h : d ∈ ds) :
    d.type.height ≤ heightOf ds := by
  induction h with
  | head ds =>
      cases d
      exact Nat.le_max_left _ _
  | tail e _ ih =>
      cases e
      exact Nat.le_trans ih (Nat.le_max_right _ _)

/-- A struct that has its number is bound by binding its members and writing their records. -/
theorem bindWithin_numbered (m : Nat) (tag : Option String) (n : Nat) (ds : List VarDecl) (p : Span)
    (s : Session) :
    bindWithin (m + 1) ⟨.struct, tag, some n, some ds, p⟩ s =
      (bindMembers (bindWithin m) ds s).andThen (fun ds => ⟨.struct, tag, some n, some ds, p⟩)
        fun ds records s => .done ⟨.struct, tag, some n, some ds, p⟩ (s.setMembers n records) () := by
  unfold bindWithin
  rfl

/-- How binding a type of bounded height ends. -/
theorem Written.bindWithin_ends {t : TypeSpec} (h : t.Written) :
    ∀ {m : Nat} {s : Session}, (t.numbered c).height ≤ m →
      (∀ d ∈ t.definitions, ∃ n, d.entryNo? c = some n) → c.Alike s.container →
      (bindWithin m (t.numbered c) s).Ends (fun t' _ s' => Bound c s t t' s')
        (s.StopsWriting c t.specs) := by
  induction h with
  | @word kind p hword =>
      intro m s _ _ _
      have hdone : bindWithin m ((simple kind p).numbered c) s = .done (simple kind p) s () := by
        cases kind with
        | void | int | float | string => unfold bindWithin; rfl
        | struct | enum | typedef => cases hword
      rw [hdone]
      exact .done ⟨.nil, .cons ⟨rfl, rfl, .inl ⟨hword, rfl⟩⟩ .nil⟩
  | @named name p =>
      intro m s _ _ hs
      unfold bindWithin
      show (bindName (.named name p) s).Ends _ _
      unfold bindName
      dsimp only
      split
      next n hn =>
        have hn : (TypeSpec.named name p).entryNo? c = some n := by
          rw [← hn, hs.structNo?]; rfl
        exact .done ⟨.nil, .cons ⟨rfl, rfl, .inr ⟨.inr rfl, rfl, n, hn, rfl⟩⟩ .nil⟩
      next hnone =>
        have hnone : c.structNo? name = none := by rw [← hs.structNo?]; exact hnone
        have hunknown : some name ∉ (c.structs.map (·.name)).map some := by
          simpa using Container.structNo?_eq_none.mp hnone
        exact .fail (.here (if_neg hunknown))
  | enum =>
      intro m s _ _ _
      unfold bindWithin
      exact .fail (.here rfl)
  | @body tag ds p _ htypes ih =>
      intro m s hm hknown hs
      rw [definitions_body] at hknown
      obtain ⟨⟨n, hn⟩, hknown⟩ := List.forall_mem_cons.mp hknown
      have hnumbered : (TypeSpec.body tag ds p).numbered c =
          ⟨.struct, tag, some n, some (VarDecl.numberedAll c ds), p⟩ := by
        rw [← hn]; rfl
      rw [hnumbered] at hm ⊢
      obtain ⟨m, rfl⟩ : ∃ k, m = k + 1 := ⟨m - 1, by rw [height] at hm; omega⟩
      rw [bindWithin_numbered]
      have hself : (TypeSpec.body tag ds p).complaint? (c.structs.map (·.name)) = none := rfl
      refine Step.Ends.andThen ((bindMembers_ends htypes ?_ hs).mono_error fun _ _ hstop =>
        hstop.after (List.forall_mem_singleton.mpr hself) .nil (by simp)) ?_
      · -- what is known of the struct is known of its members
        intro d hd s hs
        have hheight : (d.type.numbered c).height ≤ heightOf (VarDecl.numberedAll c ds) :=
          height_le_heightOf (VarDecl.mem_numberedAll c hd)
        refine ih d hd (by rw [height] at hm; omega) ?_ hs
        exact fun e he => hknown e ((VarDecl.mem_definitionsOf htypes).mpr ⟨d, hd, he⟩)
      · rintro ds' records s' ⟨⟨ws, hwrites, hmem⟩, hspecs, hrecords⟩
        -- the struct itself is written after those in its body
        have hlists : (TypeSpec.body tag ds p).Lists c records := hrecords
        have hself : (TypeSpec.body tag ds p).Resolves c ⟨.struct, tag, some n, some ds', p⟩ :=
          ⟨rfl, rfl, .inr ⟨.inl rfl, rfl, n, hn, rfl⟩⟩
        refine .done ⟨⟨_, hwrites.append (.cons hn hlists .nil), fun d => ?_⟩, .cons hself hspecs⟩
        rw [definitions_body, List.mem_append, List.mem_singleton, hmem, List.mem_cons, or_comm]

/-- **The second walk writes all structs of a program**, and those before the error if it fails. -/
theorem each_bind_ends {ts : List TypeSpec} (hts : ∀ t ∈ ts, t.Written)
    (hknown : ∀ d ∈ ts.flatMap definitions, ∃ n, d.entryNo? c = some n) {s : Session}
    (hs : c.Alike s.container) :
    (Step.each bind (ts.map (·.numbered c)) s).Ends
      (fun ts' _ s' => s.WritesAll c (ts.flatMap definitions) s' ∧
        List.Forall₂ (fun t t' => List.Forall₂ (Resolves c) t.specs t'.specs) ts ts')
      (s.StopsWriting c (ts.flatMap specs)) := by
  induction ts generalizing s with
  | nil => exact .done ⟨.nil, .nil⟩
  | cons t ts ih =>
      obtain ⟨ht, hts⟩ := List.forall_mem_cons.mp hts
      rw [List.flatMap_cons] at hknown
      obtain ⟨hknown, hknown'⟩ := List.forall_mem_append.mp hknown
      rw [List.map_cons, Step.each]
      have hfirst := ht.bindWithin_ends (Nat.le_refl _) hknown hs
      refine (hfirst.mono_error fun _ _ hstop => hstop.before _).andThen ?_
      rintro t' _ s₁ ⟨hwrites, hspecs⟩
      have hrest := ih hts hknown' (hs.trans hwrites.alike)
      refine .map (hrest.mono ?_ fun _ _ hstop => Bound.stopsWriting ⟨hwrites, hspecs⟩ hstop)
      rintro ts' _ s' ⟨hwrites', hspecs'⟩
      exact ⟨hwrites.append hwrites', .cons hspecs hspecs'⟩

theorem number_kind (t : TypeSpec) (s : Session) : (t.number s).tree.kind = t.kind := by
  unfold number
  split
  · rfl
  · exact register_kind t s

theorem addsNoName_bind : AddsNoName bind := by
  intro t s h
  unfold bind bindWithin at h
  split at h
  next hkind => exact hkind
  next => exact h
  next =>
    split at h
    · have hkind := number_kind t s
      rw [← h]
      exact (Step.tree_andThen (P := fun u : TypeSpec => u.kind = t.kind) hkind fun _ =>
        Step.tree_andThen (P := fun u : TypeSpec => u.kind = t.kind) hkind fun _ => hkind).symm
    · exact h
  next => exact h

end TypeSpec

/-! ## Whole programs -/

namespace Block

/-- All types in a program, each before the types in its body. -/
def specs (b : Block) : List TypeSpec := b.types.flatMap TypeSpec.specs

/-- All struct definitions in a program, an outer one before those in its body. -/
def definitions (b : Block) : List TypeSpec := b.specs.filter (·.members.isSome)

theorem definitions_eq (b : Block) : b.definitions = b.types.flatMap TypeSpec.definitions :=
  List.filter_flatMap

theorem written_types {b : Block} (hb : ∀ i ∈ b.declarations, i.Written) :
    ∀ t ∈ b.types, t.Written := by
  intro t ht
  obtain ⟨i, hi, ht⟩ := List.mem_flatMap.mp ht
  have hi := hb i hi
  cases i with
  | var d =>
      unfold Item.types at ht
      dsimp only at ht
      split at ht
      · cases ht
      · rw [List.mem_singleton.mp ht]
        exact hi.1
  | func head body =>
      rcases List.mem_cons.mp ht with rfl | ht
      · exact hi.1
      · obtain ⟨d, hd, rfl⟩ := List.mem_map.mp ht
        exact (hi.2 d hd).type
  | stmt x => cases ht

/--
**How settling the types of a program ends.** All definitions are entered, and then all of them are
written by the table as it is by then. If the pass fails, then one of the definitions is refused, or all
of them are entered and something is wrong with one of the types.
-/
theorem bindTypes_ends {b : Block} (hb : ∀ i ∈ b.declarations, i.Written) (s : Session) :
    (b.bindTypes s).Ends
      (fun b' _ s' => ∃ s₁, s.Registers b.definitions s₁ ∧
        s₁.WritesAll s₁.container b.definitions s' ∧
        List.Forall₂ (fun t t' => List.Forall₂ (TypeSpec.Resolves s₁.container) t.specs t'.specs)
          b.types b'.types)
      fun e s' => s.StopsEntering b.definitions e s' ∨
        ∃ s₁, s.Registers b.definitions s₁ ∧ s₁.StopsWriting s₁.container b.specs e s' := by
  have hwritten := written_types hb
  unfold bindTypes
  have hfirst := TypeSpec.each_registerNew_ends hwritten s
  rw [← Block.types_updateTypes TypeSpec.addsNoName_registerNew, ← definitions_eq] at hfirst
  refine ((Step.Ends.of_map hfirst).mono_error fun _ _ hstop => .inl hstop).andThen ?_
  rintro b₁ _ s₁ ⟨hregisters, htypes⟩
  have hknown : ∀ d ∈ b.types.flatMap TypeSpec.definitions, ∃ n, d.entryNo? s₁.container = some n :=
    fun d hd => (hregisters.entryNo? (b.definitions_eq ▸ hd)).imp fun _ h => h.2
  have hsecond := TypeSpec.each_bind_ends hwritten hknown (.refl s₁.container)
  rw [← htypes _ (.refl _), ← Block.types_updateTypes TypeSpec.addsNoName_bind,
    ← definitions_eq] at hsecond
  refine (Step.Ends.of_map hsecond).mono ?_ fun _ _ hstop => .inr ⟨s₁, hregisters, hstop⟩
  rintro b' _ s' ⟨hwrites, hspecs⟩
  exact ⟨s₁, hregisters, hwrites, hspecs⟩

end Block

end Jaf
