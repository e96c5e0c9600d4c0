import Jaf.Proofs.Analysis.CheckPlaceIndependence

/-!
# What the version of a container decides

The version of a container decides one thing: whether variables have a second name. So a container can be
turned into one of another version by giving all its variables the second name of that version
(`Container.restyle`), and analysis takes no notice: to analyse a program with the container of another
version is to analyse it with the given one and to restyle what comes out (`Block.analyse_restyle`). That
holds of every program, of every container to begin with, and of failures as well as of successes, since
restyling is a change that analysis takes no notice of (`Session.unnoticed_restyle`).

All that is said about two versions is read off this equation. A container that analysis has filled from
nothing is its own restyling, so that the second names in it are those of its version.
-/

namespace Jaf

/-! ## Restyling -/

/-- The second name that variables have in containers of a version. -/
def secondNameOf (version : Nat) : Option String := if 12 ≤ version then some "" else none

/-- A variable as containers of a version have it. -/
def Variable.restyle (version : Nat) (v : Variable) : Variable := v.withSecond (secondNameOf version)

/-- A container turned into one of another version. -/
def Container.restyle (version : Nat) (c : Container) : Container :=
  c.styled version (secondNameOf version)

/-- A session on the container of another version. -/
def Session.restyle (version : Nat) (s : Session) : Session :=
  { s with container := s.container.restyle version }

/-- A container without its version and without second names. -/
def Container.plain (c : Container) : Container := c.styled 0 none

/-- All variable records of a container: members, parameters, locals and globals. -/
def Container.variables (c : Container) : List Variable :=
  c.structs.flatMap (·.members) ++ c.functions.flatMap (·.vars) ++ c.globals

theorem Variable.withSecond_withSecond (second second' : Option String) :
    Variable.withSecond second' ∘ Variable.withSecond second = Variable.withSecond second' := rfl

/-- The style that a container is given last is the one that it has. -/
theorem Container.styled_styled (version version' : Nat) (second second' : Option String)
    (c : Container) : (c.styled version second).styled version' second' = c.styled version' second' := by
  have hstructs : Struct.withSecond second' ∘ Struct.withSecond second = Struct.withSecond second' := by
    funext s
    unfold Struct.withSecond
    dsimp only [Function.comp]
    rw [List.map_map, Variable.withSecond_withSecond]
  have hfunctions :
      Function.withSecond second' ∘ Function.withSecond second = Function.withSecond second' := by
    funext f
    unfold Function.withSecond
    dsimp only [Function.comp]
    rw [List.map_map, Variable.withSecond_withSecond]
  unfold Container.styled
  dsimp only
  rw [List.map_map, List.map_map, List.map_map, hstructs, hfunctions, Variable.withSecond_withSecond]

theorem Container.plain_restyle (version : Nat) (c : Container) : (c.restyle version).plain = c.plain :=
  Container.styled_styled ..

theorem Container.mem_variables_styled {version : Nat} {second : Option String} {c : Container}
    {v : Variable} (h : v ∈ (c.styled version second).variables) : v.secondName = second := by
  have hrecord : ∀ {vs : List Variable}, v ∈ vs.map (Variable.withSecond second) →
      v.secondName = second := by
    intro vs hv
    obtain ⟨w, _, rfl⟩ := List.mem_map.mp hv
    rfl
  simp only [Container.variables, Container.styled, List.mem_append, List.mem_flatMap,
    List.mem_map] at h
  obtain (⟨s, ⟨s', _, rfl⟩, hv⟩ | ⟨f, ⟨f', _, rfl⟩, hv⟩) | ⟨w, _, rfl⟩ := h
  · exact hrecord hv
  · exact hrecord hv
  · rfl

section Restyle

variable {version : Nat}

theorem Container.newVariable_restyle (c : Container) (name : String) (t : TypeCode) :
    (c.restyle version).newVariable name t =
      (c.newVariable name t).restyle version := by
  have hsecond : (if (c.restyle version).hasSecondNames then some "" else none) =
      secondNameOf version := by
    unfold Container.hasSecondNames Container.restyle Container.styled secondNameOf
    by_cases h : 12 ≤ version <;> simp [h]
  rw [Container.newVariable, hsecond]
  rfl

theorem Container.length_structs_restyle (c : Container) :
    (c.restyle version).structs.length = c.structs.length := List.length_map ..

theorem Container.length_functions_restyle (c : Container) :
    (c.restyle version).functions.length = c.functions.length := List.length_map ..

theorem Container.length_globals_restyle (c : Container) :
    (c.restyle version).globals.length = c.globals.length := List.length_map ..

theorem Session.addStruct_restyle (s : Session) (name : String) :
    (s.restyle version).addStruct name = (s.addStruct name).restyle version := by
  have hcontainer : (s.container.restyle version).addStruct name =
      (s.container.addStruct name).restyle version := by
    unfold Container.addStruct Container.restyle Container.styled
    rw [List.map_append]
    rfl
  have hlength : (s.container.restyle version).structs.length = s.container.structs.length :=
    Container.length_structs_restyle ..
  unfold Session.addStruct
  dsimp only [Session.restyle]
  rw [hcontainer, hlength]
  rfl

theorem Session.setMembers_restyle (s : Session) (n : Nat) (members : List Variable) :
    (s.restyle version).setMembers n (members.map (Variable.restyle version)) =
      (s.setMembers n members).restyle version := by
  have hcontainer : (s.container.restyle version).setMembers n
      (members.map (Variable.restyle version)) = (s.container.setMembers n members).restyle version := by
    unfold Container.setMembers Container.restyle Container.styled
    dsimp only
    congr 1
    apply List.ext_getElem?
    intro i
    rw [List.getElem?_map, List.getElem?_modify, List.getElem?_modify, List.getElem?_map]
    cases s.container.structs[i]? with
    | none => rfl
    | some st => by_cases h : n = i <;> simp [h, Struct.withSecond, Variable.restyle]
  unfold Session.setMembers
  dsimp only [Session.restyle]
  rw [hcontainer, List.length_map]
  rfl

theorem Session.addFunction_restyle (s : Session) (f : Function) :
    (s.restyle version).addFunction (f.withSecond (secondNameOf version)) =
      (s.addFunction f).restyle version := by
  have hcontainer : (s.container.restyle version).addFunction (f.withSecond (secondNameOf version)) =
      (s.container.addFunction f).restyle version := by
    unfold Container.addFunction Container.restyle Container.styled
    rw [List.map_append]
    rfl
  have hlength : (s.container.restyle version).functions.length = s.container.functions.length :=
    Container.length_functions_restyle ..
  have hvars : (f.withSecond (secondNameOf version)).vars.length = f.vars.length := List.length_map ..
  unfold Session.addFunction
  dsimp only [Session.restyle]
  rw [hcontainer, hlength, hvars]
  rfl

theorem Session.addGlobal_restyle (s : Session) (name : String) (t : TypeCode) :
    (s.restyle version).addGlobal name t = (s.addGlobal name t).restyle version := by
  have hcontainer : (s.container.restyle version).addGlobal name t =
      (s.container.addGlobal name t).restyle version := by
    unfold Container.addGlobal
    rw [Container.newVariable_restyle]
    unfold Container.restyle Container.styled
    rw [List.map_append]
    rfl
  have hlength : (s.container.restyle version).globals.length = s.container.globals.length :=
    Container.length_globals_restyle ..
  unfold Session.addGlobal
  dsimp only [Session.restyle]
  rw [hcontainer, hlength]
  rfl

end Restyle

/-! ## The whole analysis -/

theorem Session.unnoticed_restyle (version : Nat) :
    Session.Unnoticed (Session.restyle version) (Variable.restyle version) where
  visible s := by
    show Container.mk _ _ _ _ _ = Container.mk _ _ _ _ _
    have hplain := Container.plain_restyle version s.container
    unfold Container.plain at hplain
    dsimp only [Session.restyle]
    rw [hplain]
  note _ _ := rfl
  addInitval _ _ _ := rfl
  newVariable s := s.container.newVariable_restyle
  addStruct := Session.addStruct_restyle
  setMembers := Session.setMembers_restyle
  addFunction := Session.addFunction_restyle
  addGlobal := Session.addGlobal_restyle
  initvals _ := rfl

/-- **Analysis commutes with restyling**, whether it succeeds or fails. -/
theorem Block.analyse_restyle (b : Block) (version : Nat) (s : Session) :
    b.analyse (s.restyle version) = (b.analyse s).mapState (Session.restyle version) := by
  have h := Block.analyse_moved (M := .same) (Session.unnoticed_restyle version) b s
  rw [Relocation.block_same, Relocation.step_same] at h
  exact h

/-- Variables have an empty second name in containers of version 12 and later, and none in older ones. -/
def Container.NamesAsVersion (c : Container) : Prop :=
  ∀ v ∈ c.variables, (v.secondName = some "" ↔ 12 ≤ c.version) ∧ (v.secondName = none ↔ c.version < 12)

theorem Container.namesAsVersion_restyle (version : Nat) (c : Container) :
    (c.restyle version).NamesAsVersion := by
  intro v hv
  have hversion : (c.restyle version).version = version := rfl
  rw [Container.mem_variables_styled hv, hversion, secondNameOf]
  by_cases h : 12 ≤ version
  · simp [h]
  · simp [h]; omega

/-- A container that analysis fills from nothing has the style of its version. -/
theorem Block.analyse_empty_styled (b : Block) (version : Nat) :
    (b.analyse (.ofContainer (.empty version))).state.container.restyle version =
      (b.analyse (.ofContainer (.empty version))).state.container := by
  have h := b.analyse_restyle version (.ofContainer (.empty version))
  exact (congrArg (fun r => r.state.container) h).symm

theorem Block.analyse_namesAsVersion (b : Block) (version : Nat) :
    (b.analyse (.ofContainer (.empty version))).state.container.version = version ∧
      (b.analyse (.ofContainer (.empty version))).state.container.NamesAsVersion := by
  rw [← b.analyse_empty_styled version]
  exact ⟨rfl, Container.namesAsVersion_restyle version _⟩

/--
**The version decides about second names and about nothing else.** Analysing a program into new containers
of two versions has the same result, an error included, and leaves the same tree. The two containers are
equal but for their versions and their second names, however far the analysis came; and the variables in
each of them have an empty second name exactly if its version is 12 or later, and no second name otherwise.
-/
theorem Block.analyse_version (b : Block) (version version' : Nat) :
    (b.analyse (.ofContainer (.empty version'))).result =
        (b.analyse (.ofContainer (.empty version))).result ∧
      (b.analyse (.ofContainer (.empty version'))).tree =
        (b.analyse (.ofContainer (.empty version))).tree ∧
      (b.analyse (.ofContainer (.empty version'))).state.container.plain =
        (b.analyse (.ofContainer (.empty version))).state.container.plain ∧
      ((b.analyse (.ofContainer (.empty version))).state.container.version = version ∧
        (b.analyse (.ofContainer (.empty version))).state.container.NamesAsVersion) ∧
      (b.analyse (.ofContainer (.empty version'))).state.container.version = version' ∧
        (b.analyse (.ofContainer (.empty version'))).state.container.NamesAsVersion := by
  have hempty : (Session.ofContainer (.empty version)).restyle version' =
      .ofContainer (.empty version') := rfl
  have hrestyled := b.analyse_restyle version' (.ofContainer (.empty version))
  rw [hempty] at hrestyled
  refine ⟨?_, ?_, ?_, b.analyse_namesAsVersion version, b.analyse_namesAsVersion version'⟩
  · rw [hrestyled]; rfl
  · rw [hrestyled]; rfl
  · rw [hrestyled]
    exact Container.plain_restyle ..

end Jaf
