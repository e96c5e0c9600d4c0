import Jaf.Proofs.Analysis.StructTable

/-!
# How a session moves

Analysis changes its session in six ways only: it enters a struct, writes the members of one, enters a
function or a global, records an initial value, and notes what it does. `Session.Moves` lists them,
each with what the pass has made sure of before: the name is new, the struct is there, and every type
refers to a struct that is there. `Session.Reaches` is any number of moves.

Whatever all moves keep holds after every analysis, however it ends. Three such facts are proved here: a
well-formed container stays well-formed; the log can be replayed on the struct table
(`LogEvent.Replays`), so no struct is written that is not there; and functions, globals and initial values
are never taken back. The last is not so for structs, since a move can write the members of any of them.
That a pass writes only to structs that it has entered itself is part of `Session.Appends`.
-/

namespace Jaf

/-! ## Well-formed containers -/

/-- A type code has a struct number just if it is a struct, and then that of one of `size` structs. -/
structure TypeCode.Within (size : Nat) (t : TypeCode) : Prop where
  struct : t.structNo.isSome = true ↔ t.data = .struct
  bound : ∀ n, t.structNo = some n → n < size

/-- A record of a variable in the form that the version wants, with a type of the struct table. -/
structure Variable.Within (version size : Nat) (v : Variable) : Prop where
  type : v.type.Within size
  secondName : v.secondName = if 12 ≤ version then some "" else none

/-- A function with types of the struct table, and with no more parameters than variables. -/
structure Function.Within (version size : Nat) (f : Function) : Prop where
  result : f.result.Within size
  vars : ∀ v ∈ f.vars, v.Within version size
  argCount : f.argCount ≤ f.vars.length

/-- A container whose types refer to structs that it has, and in which names are unique. -/
structure Container.WellFormed (c : Container) : Prop where
  members : ∀ st ∈ c.structs, ∀ v ∈ st.members, v.Within c.version c.structs.length
  functions : ∀ f ∈ c.functions, f.Within c.version c.structs.length
  globals : ∀ v ∈ c.globals, v.Within c.version c.structs.length
  structNames : (c.structs.map (·.name)).Nodup
  functionNames : (c.functions.map (·.name)).Nodup
  globalNames : (c.globals.map (·.name)).Nodup

theorem Container.wellFormed_empty (version : Nat) : (Container.empty version).WellFormed := by
  constructor <;> simp [Container.empty]

/-! ## Moves -/

/-- Whether an event tells of something that happens to the struct table. -/
def LogEvent.isStructural : LogEvent → Bool
  | structAdded _ _ | membersSet _ _ => true
  | _ => false

/-- The ways in which analysis changes its session. -/
inductive Session.Moves : Session → Session → Prop
  | addStruct {s : Session} {name : String} :
      s.container.structNo? name = none → Moves s (s.addStruct name)
  | setMembers {s : Session} {n : Nat} {members : List Variable} :
      n < s.container.structs.length →
      (∀ v ∈ members, v.Within s.container.version s.container.structs.length) →
      Moves s (s.setMembers n members)
  | addFunction {s : Session} {f : Function} :
      s.container.functionNo? f.name = none →
      f.Within s.container.version s.container.structs.length → Moves s (s.addFunction f)
  | addGlobal {s : Session} {name : String} {t : TypeCode} :
      s.container.globalNo? name = none → t.Within s.container.structs.length →
      Moves s (s.addGlobal name t)
  | addInitval {s : Session} {name : String} {v : Initval} : Moves s (s.addInitval name v)
  | note {s : Session} {e : LogEvent} : e.isStructural = false → Moves s (s.note e)

/-- Any number of moves. -/
inductive Session.Reaches : Session → Session → Prop
  | refl {s : Session} : Reaches s s
  | step {r s t : Session} : Reaches r s → s.Moves t → Reaches r t

namespace Session.Reaches

theorem single {s s' : Session} (h : s.Moves s') : s.Reaches s' := .step .refl h

theorem trans {r s t : Session} (h : r.Reaches s) (h' : s.Reaches t) : r.Reaches t := by
  induction h' with
  | refl => exact h
  | step _ hmove ih => exact .step ih hmove

end Session.Reaches

/-! ## Moves keep a container well-formed -/

section Grow

variable {version m n : Nat} (h : m ≤ n)

include h

/-- A type stays in the table when structs are added. -/
theorem TypeCode.Within.mono {t : TypeCode} (ht : t.Within m) : t.Within n :=
  ⟨ht.struct, fun k hk => Nat.lt_of_lt_of_le (ht.bound k hk) h⟩

theorem Variable.Within.mono {v : Variable} (hv : v.Within version m) : v.Within version n :=
  ⟨hv.type.mono h, hv.secondName⟩

theorem Function.Within.mono {f : Function} (hf : f.Within version m) : f.Within version n :=
  ⟨hf.result.mono h, fun v hv => (hf.vars v hv).mono h, hf.argCount⟩

end Grow

/-- All but the members stays as it should be when the struct table changes and does not shrink. -/
theorem Container.WellFormed.withStructs {c : Container} (h : c.WellFormed) {structs : List Struct}
    (hsize : c.structs.length ≤ structs.length) (hnames : (structs.map (·.name)).Nodup)
    (hmembers : ∀ st ∈ structs, ∀ v ∈ st.members, v.Within c.version structs.length) :
    Container.WellFormed { c with structs } where
  members := hmembers
  functions f hf := (h.functions f hf).mono hsize
  globals v hv := (h.globals v hv).mono hsize
  structNames := hnames
  functionNames := h.functionNames
  globalNames := h.globalNames

theorem Container.newVariable_within {c : Container} {name : String} {t : TypeCode}
    (ht : t.Within c.structs.length) :
    (c.newVariable name t).Within c.version c.structs.length :=
  ⟨ht, by simp [Container.newVariable, Container.hasSecondNames]⟩

/-- What writing the members of a struct leaves in the table. -/
theorem Container.mem_setMembers {c : Container} {n : Nat} {members : List Variable} {st : Struct}
    (h : st ∈ (c.setMembers n members).structs) : st ∈ c.structs ∨ st.members = members := by
  obtain ⟨k, hk⟩ := List.getElem?_of_mem h
  rw [Container.setMembers, List.getElem?_modify] at hk
  by_cases hnk : n = k
  · obtain ⟨old, _, rfl⟩ := Option.map_eq_some_iff.mp hk
    exact .inr (by simp [hnk])
  · exact .inl (List.mem_of_getElem? (by simpa [hnk] using hk))

theorem Container.length_setMembers (c : Container) (n : Nat) (members : List Variable) :
    (c.setMembers n members).structs.length = c.structs.length := by
  simp [Container.setMembers]

theorem Session.Moves.wellFormed {s s' : Session} (h : s.Moves s') (hs : s.container.WellFormed) :
    s'.container.WellFormed := by
  cases h with
  | @addStruct name hnew =>
      have hsize : s.container.structs.length ≤ (s.container.addStruct name).structs.length := by
        simp [Container.addStruct]
      refine hs.withStructs hsize ?_ fun st hst v hv => ?_
      · have hfresh := Container.structNo?_eq_none.mp hnew
        simpa [Container.addStruct] using hs.structNames.concat hfresh
      · rcases List.mem_append.mp hst with hst | hst
        · exact (hs.members st hst v hv).mono hsize
        · -- the new struct has no members yet
          rw [List.mem_singleton.mp hst] at hv
          cases hv
  | @setMembers n members _ hmembers =>
      have hsize := Nat.le_of_eq (s.container.length_setMembers n members).symm
      refine hs.withStructs hsize ?_ fun st hst v hv => ?_
      · have hnames := hs.structNames
        rw [← (Container.Alike.setMembers s.container n members).names] at hnames
        exact hnames
      · rcases Container.mem_setMembers hst with hst | hst
        · exact (hs.members st hst v hv).mono hsize
        · exact (hmembers v (hst ▸ hv)).mono hsize
  | @addFunction f hnew hf =>
      refine ⟨hs.members, ?_, hs.globals, hs.structNames, ?_, hs.globalNames⟩
      · exact List.forall_mem_append.mpr ⟨hs.functions, List.forall_mem_singleton.mpr hf⟩
      · have hfresh := Container.functionNo?_eq_none.mp hnew
        simpa [Session.addFunction, Session.note, Container.addFunction] using
          hs.functionNames.concat hfresh
  | @addGlobal name t hnew ht =>
      refine ⟨hs.members, hs.functions, ?_, hs.structNames, hs.functionNames, ?_⟩
      · exact List.forall_mem_append.mpr ⟨hs.globals,
          List.forall_mem_singleton.mpr (Container.newVariable_within ht)⟩
      · have hfresh := Container.globalNo?_eq_none.mp hnew
        simpa [Session.addGlobal, Session.note, Container.addGlobal, Container.newVariable] using
          hs.globalNames.concat hfresh
  | addInitval =>
      exact ⟨hs.members, hs.functions, hs.globals, hs.structNames, hs.functionNames, hs.globalNames⟩
  | note => exact hs

theorem Session.Reaches.wellFormed {s s' : Session} (h : s.Reaches s') (hs : s.container.WellFormed) :
    s'.container.WellFormed := by
  induction h with
  | refl => exact hs
  | step _ hmove ih => exact hmove.wellFormed ih

/-! ## Moves keep the log a record of the struct table -/

/--
Replaying events on a table of `m` structs makes it one of `n`: every struct that is added gets the next
number, and every struct whose members are written is there.
-/
inductive LogEvent.Replays : Nat → List LogEvent → Nat → Prop
  | nil {n : Nat} : Replays n [] n
  | structAdded {m n : Nat} {name : String} {es : List LogEvent} :
      Replays (m + 1) es n → Replays m (.structAdded name m :: es) n
  | membersSet {m n k count : Nat} {es : List LogEvent} :
      k < m → Replays m es n → Replays m (.membersSet k count :: es) n
  | other {m n : Nat} {e : LogEvent} {es : List LogEvent} :
      e.isStructural = false → Replays m es n → Replays m (e :: es) n

theorem LogEvent.Replays.append {l m n : Nat} {es fs : List LogEvent} (h : Replays l es m)
    (h' : Replays m fs n) : Replays l (es ++ fs) n := by
  induction h with
  | nil => exact h'
  | structAdded _ ih => exact .structAdded (ih h')
  | membersSet hk _ ih => exact .membersSet hk (ih h')
  | other he _ ih => exact .other he (ih h')

theorem Session.Moves.replays {s s' : Session} (h : s.Moves s') :
    ∃ e, s'.log = s.log ++ [e] ∧
      LogEvent.Replays s.container.structs.length [e] s'.container.structs.length := by
  cases h with
  | addStruct _ =>
      refine ⟨_, rfl, ?_⟩
      simpa [Session.addStruct, Session.note, Container.addStruct] using
        LogEvent.Replays.structAdded (.nil)
  | @setMembers n members hn _ =>
      refine ⟨_, rfl, ?_⟩
      show LogEvent.Replays _ _ (s.container.setMembers n members).structs.length
      rw [Container.length_setMembers]
      exact .membersSet hn .nil
  | addFunction _ _ => exact ⟨_, rfl, .other rfl .nil⟩
  | addGlobal _ _ => exact ⟨_, rfl, .other rfl .nil⟩
  | addInitval => exact ⟨_, rfl, .other rfl .nil⟩
  | note he => exact ⟨_, rfl, .other he .nil⟩

theorem Session.Reaches.replays {s s' : Session} (h : s.Reaches s') :
    ∃ events, s'.log = s.log ++ events ∧
      LogEvent.Replays s.container.structs.length events s'.container.structs.length := by
  induction h with
  | refl => exact ⟨[], (List.append_nil _).symm, .nil⟩
  | step _ hmove ih =>
      obtain ⟨events, hlog, hreplays⟩ := ih
      obtain ⟨e, hlog', hreplays'⟩ := hmove.replays
      exact ⟨events ++ [e], by rw [hlog', hlog, List.append_assoc], hreplays.append hreplays'⟩

/-! ## Moves take nothing back -/

/-- All that a container has beside its structs is in the other under the same numbers. -/
structure Container.PrecedesBeside (c c' : Container) : Prop where
  version : c'.version = c.version
  functions : c.functions <+: c'.functions
  globals : c.globals <+: c'.globals
  initvals : c.initvals <+: c'.initvals

/-- All that a container has is in the other under the same numbers. -/
structure Container.Precedes (c c' : Container) : Prop extends c.PrecedesBeside c' where
  structs : c.structs <+: c'.structs

theorem Session.Moves.precedesBeside {s s' : Session} (h : s.Moves s') :
    s.container.PrecedesBeside s'.container := by
  have hadded : ∀ {α : Type} (as bs : List α), as <+: as ++ bs := fun as bs => List.prefix_append as bs
  cases h with
  | addStruct | setMembers | note =>
      exact ⟨rfl, List.prefix_rfl, List.prefix_rfl, List.prefix_rfl⟩
  | addFunction => exact ⟨rfl, hadded _ _, List.prefix_rfl, List.prefix_rfl⟩
  | addGlobal => exact ⟨rfl, List.prefix_rfl, hadded _ _, List.prefix_rfl⟩
  | addInitval => exact ⟨rfl, List.prefix_rfl, List.prefix_rfl, hadded _ _⟩

theorem Session.Reaches.precedesBeside {s s' : Session} (h : s.Reaches s') :
    s.container.PrecedesBeside s'.container := by
  induction h with
  | refl => exact ⟨rfl, List.prefix_rfl, List.prefix_rfl, List.prefix_rfl⟩
  | step _ hmove ih =>
      have hnext := hmove.precedesBeside
      exact ⟨hnext.version.trans ih.version, ih.functions.trans hnext.functions,
        ih.globals.trans hnext.globals, ih.initvals.trans hnext.initvals⟩

/-- A session that has only moved, and still has the structs that it had under the same numbers. -/
structure Session.Appends (s s' : Session) : Prop where
  reaches : s.Reaches s'
  structs : s.container.structs <+: s'.container.structs

theorem Session.Appends.trans {r s t : Session} (h : r.Appends s) (h' : s.Appends t) : r.Appends t :=
  ⟨h.reaches.trans h'.reaches, h.structs.trans h'.structs⟩

/-- A session appends what it moves to, as long as no struct is entered or written. -/
theorem Session.Reaches.appends {s s' : Session} (h : s.Reaches s')
    (hstructs : s'.container.structs = s.container.structs) : s.Appends s' :=
  ⟨h, hstructs ▸ List.prefix_rfl⟩

theorem Session.Appends.note {s s' : Session} (h : s.Appends s') {e : LogEvent}
    (he : e.isStructural = false) : s.Appends (s'.note e) :=
  ⟨h.reaches.step (.note he), h.structs⟩

theorem Session.Appends.precedes {s s' : Session} (h : s.Appends s') :
    s.container.Precedes s'.container := ⟨h.reaches.precedesBeside, h.structs⟩

section Numbers

variable {α : Type} {as bs : List α}

theorem getElem?_of_isPrefix (h : as <+: bs) {n : Nat} {a : α} (ha : as[n]? = some a) :
    bs[n]? = some a := by
  obtain ⟨hn, rfl⟩ := List.getElem?_eq_some_iff.mp ha
  exact List.prefix_iff_getElem?.mp h n hn

theorem findIdx?_of_isPrefix (h : as <+: bs) {p : α → Bool} {n : Nat} (hn : as.findIdx? p = some n) :
    bs.findIdx? p = some n := by
  obtain ⟨cs, rfl⟩ := h
  rw [List.findIdx?_append, hn]
  rfl

end Numbers

end Jaf
