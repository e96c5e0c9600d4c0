import Jaf.Proofs.Analysis.ProgramParts
import Jaf.Proofs.Analysis.SessionMoves

/-!
# Moves of the first two passes

Settling types and handing out numbers change the session by moves only, also where they fail. The
reason is the same for both: a type is encoded from the struct table, so its code is one of the table
(`TypeSpec.CodedWithin`). For the first pass this is read off the lists of definitions that it enters
and writes; so is that it writes only what it has entered. The second pass starts with types that the
first one has left, so it never fails to encode one, and what it can still complain about are names and
places (`SemanticCause.isOfDeclarations`).

The second pass enters an item with all that belongs to it or not at all. So if it fails, it stops at an
item that has a flaw by the tables as they are then (`Item.flaw?`), and these are the tables of the items
before (`Item.allotAll_ends`).
-/

namespace Jaf

/-! ## Settling types -/

/-- The type has a code, and the code is one of a table of `size` structs. -/
def TypeSpec.CodedWithin (size : Nat) (t : TypeSpec) : Prop :=
  ∃ code, t.encode = .ok code ∧ code.Within size

theorem TypeSpec.entryNo?_lt {c : Container} {t : TypeSpec} {n : Nat} (h : t.entryNo? c = some n) :
    n < c.structs.length := by
  obtain ⟨name, _, hn⟩ := Option.bind_eq_some_iff.mp h
  exact (List.findIdx?_eq_some_iff_getElem.mp hn).1

theorem TypeSpec.code?_within {c : Container} {t : TypeSpec} {code : TypeCode}
    (h : t.code? c = some code) : code.Within c.structs.length := by
  have hscalar : ∀ k, k ≠ .struct → (TypeCode.scalar k).Within c.structs.length :=
    fun k hk => ⟨by simpa [TypeCode.scalar] using hk, by simp [TypeCode.scalar]⟩
  have hstruct : ∀ n, t.entryNo? c = some n → (TypeCode.struct n).Within c.structs.length := by
    intro n hn
    refine ⟨by simp [TypeCode.struct], fun m hm => ?_⟩
    cases hm
    exact entryNo?_lt hn
  unfold TypeSpec.code? at h
  cases hk : t.kind with
  | void | int | float | string =>
      rw [hk] at h
      cases h
      exact hscalar _ (by decide)
  | struct | typedef =>
      rw [hk] at h
      obtain ⟨n, hn, rfl⟩ := Option.map_eq_some_iff.mp h
      exact hstruct n hn
  | enum => rw [hk] at h; cases h

theorem TypeSpec.Resolves.codedWithin {c : Container} {t t' : TypeSpec} (h : t.Resolves c t') :
    t'.CodedWithin c.structs.length := by
  obtain ⟨code, hcode, hencode⟩ := h.encode
  exact ⟨code, hencode, code?_within hcode⟩

theorem VarDecl.record?_within {c : Container} {d : VarDecl} {v : Variable}
    (h : d.record? c = some v) : v.Within c.version c.structs.length := by
  obtain ⟨name, _, h⟩ := Option.bind_eq_some_iff.mp h
  obtain ⟨code, hcode, rfl⟩ := Option.map_eq_some_iff.mp h
  exact Container.newVariable_within (TypeSpec.code?_within hcode)

theorem TypeSpec.Lists.within {c : Container} {t : TypeSpec} {records : List Variable}
    (h : t.Lists c records) : ∀ v ∈ records, v.Within c.version c.structs.length := by
  intro v hv
  obtain ⟨d, _, hd⟩ := exists_of_forall₂ h hv
  exact VarDecl.record?_within hd

theorem Container.Alike.length_eq {c c' : Container} (h : c.Alike c') :
    c'.structs.length = c.structs.length := by
  simpa using congrArg List.length h.names

theorem Session.Registers.reaches {s s' : Session} {ds : List TypeSpec} (h : s.Registers ds s') :
    s.Reaches s' := by
  induction h with
  | nil => exact .refl
  | cons _ hnew _ ih => exact (Reaches.single (.addStruct hnew)).trans ih

theorem Session.Writes.reaches {c : Container} {s s' : Session} {ds : List TypeSpec}
    (h : s.Writes c ds s') (hs : c.Alike s.container) : s.Reaches s' := by
  induction h with
  | nil => exact .refl
  | @cons s s' d ds n records hn hlists _ ih =>
      have hmove : s.Moves (s.setMembers n records) := by
        refine .setMembers ?_ ?_
        · rw [hs.length_eq]
          exact TypeSpec.entryNo?_lt hn
        · rw [hs.length_eq, hs.version]
          exact hlists.within
      exact (Reaches.single hmove).trans (ih (hs.trans (.setMembers _ _ _)))

/-- Writing to structs behind the old ones leaves the old ones as they are. -/
theorem Session.Writes.keeps_structs {c : Container} {s s' : Session} {ds : List TypeSpec}
    (h : s.Writes c ds s') {old : List Struct} (hold : old <+: s.container.structs)
    (hds : ∀ d ∈ ds, ∀ n, d.entryNo? c = some n → old.length ≤ n) : old <+: s'.container.structs := by
  refine List.prefix_iff_getElem?.mpr fun k hk => ?_
  have hlt : k < s'.container.structs.length := by
    rw [h.alike.length_eq]
    exact Nat.lt_of_lt_of_le hk hold.length_le
  rcases h.entry (List.getElem?_eq_getElem hlt) with ⟨d, hd, hn, _⟩ | ⟨hkept, _⟩
  · have hle := hds d hd k hn
    omega
  · rw [List.getElem?_eq_getElem hlt, ← hkept]
    exact List.prefix_iff_getElem?.mp hold k hk

/-- Entering definitions, and writing to some of these, takes nothing back. -/
theorem Session.Registers.appends {s s₁ s' : Session} {ds ws : List TypeSpec} (h : s.Registers ds s₁)
    (hwrites : s₁.Writes s₁.container ws s') (hws : ∀ d ∈ ws, d ∈ ds) : s.Appends s' := by
  refine ⟨h.reaches.trans (hwrites.reaches (.refl _)), hwrites.keeps_structs ?_ ?_⟩
  · rw [h.container_eq]
    exact List.prefix_append _ _
  · intro d hd n hn
    obtain ⟨m, hle, hm⟩ := h.entryNo? (hws d hd)
    rw [hn] at hm
    cases hm
    exact hle

/-- What can be wrong with the types of a program. -/
def SemanticCause.isOfTypes : SemanticCause → Bool
  | anonymousStruct | structRedefined _ | unknownType _ | unsupportedType _ => true
  | _ => false

theorem TypeSpec.refusal?_isOfTypes {taken : List String} {d : TypeSpec} {e : SemanticError}
    (h : d.refusal? taken = some e) : e.cause.isOfTypes = true := by
  unfold TypeSpec.refusal? at h
  split at h
  · cases h; rfl
  · split at h
    · cases h; rfl
    · cases h

theorem TypeSpec.complaint?_isOfTypes {known : List String} {t : TypeSpec} {e : SemanticError}
    (h : t.complaint? known = some e) : e.cause.isOfTypes = true := by
  unfold TypeSpec.complaint? at h
  split at h
  · cases h; rfl
  · split at h
    · cases h
    · cases h; rfl
  · cases h

/-- **Settling types takes nothing back**, and leaves types that have codes. -/
theorem Block.bindTypes_appends {b : Block} (hb : ∀ i ∈ b.declarations, i.Written) (s : Session) :
    (b.bindTypes s).Ends
      (fun b' _ s' => s.Appends s' ∧ ∀ t ∈ b'.types, t.CodedWithin s'.container.structs.length)
      fun e s' => s.Appends s' ∧ e.cause.isOfTypes = true := by
  refine (Block.bindTypes_ends hb s).mono ?_ ?_
  · rintro b' _ s' ⟨s₁, hregisters, ⟨ws, hwrites, hws⟩, hspecs⟩
    refine ⟨hregisters.appends hwrites fun d hd => (hws d).mp hd, fun t ht => ?_⟩
    obtain ⟨_, _, hspec⟩ := exists_of_forall₂ hspecs ht
    rw [hwrites.alike.length_eq]
    exact (TypeSpec.resolves_of_specs hspec).codedWithin
  · rintro e s' (⟨us, d, vs, _, hregisters, hd⟩ | ⟨s₁, hregisters, ⟨us, t, vs, _, _, ht⟩, ws, hwrites, hws⟩)
    · exact ⟨hregisters.appends .nil (by simp), TypeSpec.refusal?_isOfTypes hd⟩
    · exact ⟨hregisters.appends hwrites hws, TypeSpec.complaint?_isOfTypes ht⟩

/-! ## Flaws of top-level items -/

/-- What is wrong with a function itself: a parameter without a name, or else a function inside of it. -/
def FuncHead.flaw? (h : FuncHead) (body : Block) : Option SemanticError :=
  ((h.params.find? (·.name.isNone)).map fun d => ⟨d.span, .unnamedParameter⟩).or
    ((Item.functions body.declarations).head?.map fun p => ⟨p.1.span, .nestedFunction⟩)

/--
What is wrong with a top-level item where the given functions and globals have been declared, if anything
is. A name that is taken comes before all else.
-/
def Item.flaw? (functions globals : List String) : Item → Option SemanticError
  | .var d =>
    match d.name with
    | none => none
    | some name => if name ∈ globals then some ⟨d.span, .nameRedefined name⟩ else none
  | .func h body =>
    if h.name ∈ functions then some ⟨h.span, .nameRedefined h.name⟩ else h.flaw? body
  | .stmt _ => none

/-- What is wrong with a top-level item by the tables. -/
def Container.flaw? (c : Container) (i : Item) : Option SemanticError :=
  i.flaw? (c.functions.map (·.name)) (c.globals.map (·.name))

/-- What the pass that hands out numbers can complain about. -/
def SemanticCause.isOfDeclarations : SemanticCause → Bool
  | nameRedefined _ | unnamedParameter | nestedFunction => true
  | _ => false

theorem FuncHead.flaw?_isOfDeclarations {h : FuncHead} {body : Block} {e : SemanticError}
    (he : h.flaw? body = some e) : e.cause.isOfDeclarations = true := by
  rcases Option.or_eq_some_iff.mp he with hparam | ⟨_, hnested⟩
  · obtain ⟨d, _, rfl⟩ := Option.map_eq_some_iff.mp hparam
    rfl
  · obtain ⟨p, _, rfl⟩ := Option.map_eq_some_iff.mp hnested
    rfl

theorem Item.flaw?_isOfDeclarations {functions globals : List String} {i : Item} {e : SemanticError}
    (he : i.flaw? functions globals = some e) : e.cause.isOfDeclarations = true := by
  cases i with
  | var d =>
      unfold Item.flaw? at he
      dsimp only at he
      split at he
      · cases he
      · split at he
        · cases he; rfl
        · cases he
  | func h body =>
      unfold Item.flaw? at he
      dsimp only at he
      split at he
      · cases he; rfl
      · exact FuncHead.flaw?_isOfDeclarations he
  | stmt x => cases he

/-! ## Numbering variables -/

section Numbering

variable {c : Container}

/-- A list of variables that is as it should be has only been added to. -/
def Variable.Added (c : Container) (vars vars' : List Variable) : Prop :=
  vars.length ≤ vars'.length ∧ ∀ v ∈ vars', v.Within c.version c.structs.length

theorem Variable.Added.trans {as bs cs : List Variable} (h : Variable.Added c as bs)
    (h' : Variable.Added c bs cs) : Variable.Added c as cs := ⟨Nat.le_trans h.1 h'.1, h'.2⟩

theorem VarDecl.allot_ends {d : VarDecl}
    (hd : d.name.isSome = true → d.type.CodedWithin c.structs.length) {vars : List Variable}
    (hvars : ∀ v ∈ vars, v.Within c.version c.structs.length) :
    (d.allot c vars).Ends (fun _ _ vars' => Variable.Added c vars vars') fun _ _ => False := by
  unfold VarDecl.allot
  cases hname : d.name with
  | none => exact .done ⟨Nat.le_refl _, hvars⟩
  | some name =>
      obtain ⟨code, hencode, hcode⟩ := hd (by rw [hname]; rfl)
      simp only [hencode]
      refine .done ⟨by simp, List.forall_mem_append.mpr ⟨hvars, List.forall_mem_singleton.mpr ?_⟩⟩
      exact Container.newVariable_within hcode

theorem VarDecl.allotParams_ends {ds : List VarDecl}
    (hds : ∀ d ∈ ds, d.type.CodedWithin c.structs.length) {vars : List Variable}
    (hvars : ∀ v ∈ vars, v.Within c.version c.structs.length) :
    (VarDecl.allotParams c ds vars).Ends
      (fun _ _ vars' => Variable.Added c vars vars' ∧ ds.find? (·.name.isNone) = none)
      fun e _ => ∃ d, ds.find? (·.name.isNone) = some d ∧ e = ⟨d.span, .unnamedParameter⟩ := by
  induction ds generalizing vars with
  | nil => exact .done ⟨⟨Nat.le_refl _, hvars⟩, rfl⟩
  | cons d ds ih =>
      obtain ⟨hd, hds⟩ := List.forall_mem_cons.mp hds
      unfold VarDecl.allotParams
      split
      next hname =>
        rw [List.find?_cons_of_neg (by simp [Option.isNone_eq_false_iff.mpr hname])]
        refine ((VarDecl.allot_ends (fun _ => hd) hvars).mono_error fun _ _ h => h.elim).andThen ?_
        intro d' _ vars₁ hadded
        refine .map ((ih hds hadded.2).mono ?_ fun _ _ he => he)
        exact fun _ _ _ hrest => ⟨hadded.trans hrest.1, hrest.2⟩
      next hname =>
        refine .fail ⟨d, List.find?_cons_of_pos ?_, rfl⟩
        simpa using hname

/-- A variable with a name is no type name alone. -/
theorem Item.mem_types {d : VarDecl} (h : d.name.isSome = true) : d.type ∈ Item.types (.var d) := by
  have hforward : d.isForward = false := by
    rw [VarDecl.isForward, Option.isNone_eq_false_iff.mpr h, Bool.false_and]
  simp [Item.types, hforward]

theorem Item.each_allotDeclared_ends {is : List Item}
    (his : ∀ t ∈ Item.typesOf is, t.CodedWithin c.structs.length)
    (hdeclares : ∀ i ∈ is, i.isDeclaration = true) {vars : List Variable}
    (hvars : ∀ v ∈ vars, v.Within c.version c.structs.length) :
    (Step.each (Item.allotDeclared c) is vars).Ends (fun _ _ vars' => Variable.Added c vars vars')
      fun e _ => ∃ p, (Item.functions is).head? = some p ∧ e = ⟨p.1.span, .nestedFunction⟩ := by
  induction is generalizing vars with
  | nil => exact .done ⟨Nat.le_refl _, hvars⟩
  | cons i is ih =>
      obtain ⟨hi, his'⟩ := List.forall_mem_append.mp his
      obtain ⟨hdeclares, hdeclares'⟩ := List.forall_mem_cons.mp hdeclares
      cases i with
      | var d =>
          have hd : d.name.isSome = true → d.type.CodedWithin c.structs.length :=
            fun hname => hi d.type (Item.mem_types hname)
          refine Step.Ends.andThen (P := fun _ _ vars' => Variable.Added c vars vars') ?_ ?_
          · exact .map ((VarDecl.allot_ends hd hvars).mono_error fun _ _ h => h.elim)
          intro i' _ vars₁ hadded
          refine .map ((ih his' hdeclares' hadded.2).mono ?_ fun _ _ he => he)
          exact fun _ _ _ hrest => hadded.trans hrest
      | func head body => exact .fail ⟨(head, body), rfl, rfl⟩
      | stmt x => cases hdeclares

theorem Block.allotLocals_ends {b : Block}
    (hb : ∀ t ∈ b.types, t.CodedWithin c.structs.length) {vars : List Variable}
    (hvars : ∀ v ∈ vars, v.Within c.version c.structs.length) :
    (b.allotLocals c vars).Ends (fun _ _ vars' => Variable.Added c vars vars')
      fun e _ => ∃ p, (Item.functions b.declarations).head? = some p ∧
        e = ⟨p.1.span, .nestedFunction⟩ := by
  have hends := Item.each_allotDeclared_ends hb Block.isDeclaration_declarations hvars
  rw [← Block.declarations_allotLocals] at hends
  exact .of_map hends

theorem FuncHead.allotVars_ends {h : FuncHead} {body : Block}
    (hparams : ∀ d ∈ h.params, d.type.CodedWithin c.structs.length)
    (hbody : ∀ t ∈ body.types, t.CodedWithin c.structs.length) :
    (h.allotVars c body).Ends
      (fun p argCount vars => p.1.name = h.name ∧ argCount ≤ vars.length ∧
        ∀ v ∈ vars, v.Within c.version c.structs.length)
      fun e _ => h.flaw? body = some e := by
  unfold FuncHead.allotVars
  refine ((VarDecl.allotParams_ends hparams (by simp)).mono_error ?_).andThen ?_
  · rintro e _ ⟨d, hd, rfl⟩
    simp only [FuncHead.flaw?, hd, Option.map_some, Option.some_or]
  rintro ps _ vars ⟨hadded, hnamed⟩
  refine ((Block.allotLocals_ends hbody hadded.2).mono_error ?_).andThen ?_
  · rintro e _ ⟨p, hp, rfl⟩
    simp only [FuncHead.flaw?, hnamed, hp, Option.map_none, Option.none_or, Option.map_some]
  · exact fun body' _ all hall => .done ⟨rfl, hall⟩

end Numbering

/-! ## Entering declarations -/

/-- A session that has only moved, with the structs that there were. -/
def Session.ReachesBeside (s s' : Session) : Prop :=
  s.Reaches s' ∧ s'.container.structs = s.container.structs

theorem Session.ReachesBeside.trans {r s t : Session} (h : r.ReachesBeside s)
    (h' : s.ReachesBeside t) : r.ReachesBeside t := ⟨h.1.trans h'.1, h'.2.trans h.2⟩

theorem VarDecl.allotGlobal_ends {d : VarDecl} {s : Session}
    (hd : d.name.isSome = true → d.type.CodedWithin s.container.structs.length) :
    (d.allotGlobal s).Ends (fun _ _ s' => s.ReachesBeside s')
      fun e s' => s' = s ∧ s.container.flaw? (.var d) = some e := by
  unfold VarDecl.allotGlobal
  cases hname : d.name with
  | none => exact .done ⟨.refl, rfl⟩
  | some name =>
      obtain ⟨code, hencode, hcode⟩ := hd (by rw [hname]; rfl)
      dsimp only
      split
      next htaken =>
        refine .fail ⟨rfl, ?_⟩
        simp only [Container.flaw?, Item.flaw?, hname]
        exact if_pos (Container.globalNo?_isSome.mp htaken)
      next hnew =>
        simp only [hencode]
        exact .done ⟨.single (.addGlobal (by simpa using hnew) hcode), rfl⟩

theorem FuncHead.allot_ends {h : FuncHead} {body : Block} {s : Session}
    (htypes : ∀ t ∈ h.types, t.CodedWithin s.container.structs.length)
    (hbody : ∀ t ∈ body.types, t.CodedWithin s.container.structs.length) :
    (h.allot body s).Ends (fun _ _ s' => s.ReachesBeside s')
      fun e s' => s' = s ∧ s.container.flaw? (.func h body) = some e := by
  obtain ⟨⟨result, hencode, hresult⟩, hparams⟩ := List.forall_mem_cons.mp htypes
  have hvars := FuncHead.allotVars_ends (List.forall_mem_map.mp hparams) hbody
  unfold FuncHead.allot
  split
  next htaken => exact .fail ⟨rfl, if_pos (Container.functionNo?_isSome.mp htaken)⟩
  next hnew =>
    simp only [hencode]
    -- the function is entered with all its variables, or not at all
    split
    next tree vars e heq =>
      rw [heq] at hvars
      refine .failed ⟨rfl, (if_neg fun htaken => hnew ?_).trans (hvars.error e rfl)⟩
      exact Container.functionNo?_isSome.mpr htaken
    next h' body' vars argCount heq =>
      rw [heq] at hvars
      obtain ⟨hname, hcount, hall⟩ := hvars.ok argCount rfl
      have hname : h'.name = h.name := hname
      refine .done ⟨.single (.addFunction ?_ ⟨hresult, hall, hcount⟩), rfl⟩
      simpa [hname] using hnew

theorem Item.allot_ends {i : Item} {s : Session}
    (hi : ∀ t ∈ Item.typesOf i.declarations, t.CodedWithin s.container.structs.length) :
    (i.allot s).Ends (fun _ _ s' => s.ReachesBeside s')
      fun e s' => s' = s ∧ s.container.flaw? i = some e := by
  cases i with
  | var d =>
      refine .map (VarDecl.allotGlobal_ends fun hname => hi d.type ?_)
      simpa [Item.typesOf] using Item.mem_types hname
  | func head body =>
      obtain ⟨htypes, hbody⟩ := List.forall_mem_append.mp hi
      unfold Item.allot
      exact .map (FuncHead.allot_ends htypes hbody)
  | stmt x => exact .done ⟨.refl, rfl⟩

/--
Entering items stops at one that has a flaw by the tables, with the tables as entering those before it
has left them.
-/
def Item.StopsAllotting (is : List Item) (s : Session) (e : SemanticError) (s' : Session) : Prop :=
  ∃ js i ks, is = js ++ i :: ks ∧ (∃ js', Item.allotAll js s = ⟨js', s', .ok ()⟩) ∧
    s'.container.flaw? i = some e

theorem Item.StopsAllotting.after {i i' : Item} {is : List Item} {s s₁ s' : Session} {e : SemanticError}
    (hi : i.allot s = ⟨i', s₁, .ok ()⟩) (h : Item.StopsAllotting is s₁ e s') :
    Item.StopsAllotting (i :: is) s e s' := by
  obtain ⟨js, j, ks, rfl, ⟨js', hjs⟩, hj⟩ := h
  refine ⟨i :: js, j, ks, rfl, ⟨i' :: js', ?_⟩, hj⟩
  exact Step.andThen_eq_ok.mpr ⟨i', s₁, (), hi, Step.map_eq_ok.mpr ⟨js', hjs, rfl⟩⟩

theorem Item.allotAll_ends {is : List Item} {s : Session}
    (his : ∀ t ∈ Item.typesOf (Item.declarationsOf is), t.CodedWithin s.container.structs.length) :
    (Item.allotAll is s).Ends (fun _ _ s' => s.ReachesBeside s')
      fun e s' => s.ReachesBeside s' ∧ Item.StopsAllotting is s e s' := by
  induction is generalizing s with
  | nil => exact .done ⟨.refl, rfl⟩
  | cons i is ih =>
      rw [Item.declarationsOf, Item.typesOf_append] at his
      obtain ⟨hi, his⟩ := List.forall_mem_append.mp his
      refine ((Item.allot_ends hi).named.mono_error ?_).andThen ?_
      · rintro e s' ⟨rfl, he⟩
        exact ⟨⟨.refl, rfl⟩, [], i, is, rfl, ⟨[], rfl⟩, he⟩
      rintro i' _ s₁ ⟨hfirst, hbeside⟩
      -- no struct has been added, so the types of the other items still have codes
      rw [← hbeside.2] at his
      refine .map ((ih his).mono (fun _ _ _ hrest => hbeside.trans hrest) ?_)
      exact fun _ _ hstop => ⟨hbeside.trans hstop.1, hstop.2.after hfirst⟩

/-- **Handing out numbers takes nothing back**, and never fails because of a type. -/
theorem Block.allot_ends {b : Block} {s : Session}
    (hb : ∀ t ∈ b.types, t.CodedWithin s.container.structs.length) :
    (b.allot s).Ends (fun _ _ s' => s.Appends s')
      fun e s' => s.Appends s' ∧ e.cause.isOfDeclarations = true := by
  obtain ⟨items, p⟩ := b
  refine .map ((Item.allotAll_ends hb).mono (fun _ _ _ h => h.1.appends h.2) ?_)
  rintro e s' ⟨hs', js, i, ks, _, _, hi⟩
  exact ⟨hs'.1.appends hs'.2, Item.flaw?_isOfDeclarations hi⟩

end Jaf
