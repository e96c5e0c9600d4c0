import Jaf.Proofs.Analysis.StructMembers
import Jaf.Proofs.Analysis.TableNumbers

/-!
# The struct table

Struct definitions are entered by one walk over the program and written by another, in different orders,
and between the two the table has entries without members. When both walks are through, none of this can
be seen: the table is the list of the definitions of the program as they stand in the text, and an entry
has the members of its definition. Numbers are positions in this list, and every type in the tree
carries the number of its struct.

The proof follows an entry through both walks. The first leaves the names in order and all of them
different (`Session.Registers.container_eq`, `Session.Registers.nodup`). The second writes to the number
of a name, and since no other definition has the same number, what is written there is right
(`Session.Writes.entry`).
-/

namespace Jaf

/-! ## After the first walk -/

namespace Session.Registers

variable {s s' : Session} {ds : List TypeSpec}

/-- The definitions stand at the end of the table in their order, without members. -/
theorem container_eq (h : s.Registers ds s') :
    s'.container = { s.container with
      structs := s.container.structs ++ ds.map fun d => ⟨d.name.getD "", []⟩ } := by
  induction h with
  | nil => simp
  | cons hname _ _ ih =>
      rw [ih]
      simp [Session.addStruct, Session.note, Container.addStruct, hname]

/-- A name that is taken is refused, so no name is there twice. -/
theorem nodup (h : s.Registers ds s') (hs : (s.container.structs.map (·.name)).Nodup) :
    (s'.container.structs.map (·.name)).Nodup := by
  induction h with
  | nil => exact hs
  | cons _ hnew _ ih =>
      apply ih
      have hfresh := Container.structNo?_eq_none.mp hnew
      simpa [Session.addStruct, Session.note, Container.addStruct] using hs.concat hfresh

theorem name_eq (h : s.Registers ds s') : ∀ d ∈ ds, d.name = some (d.name.getD "") := by
  induction h with
  | nil => intro d hd; cases hd
  | cons hname _ _ ih =>
      intro d hd
      rcases List.mem_cons.mp hd with rfl | hd
      · rw [hname]; rfl
      · exact ih d hd

end Session.Registers

/-! ## After the second walk -/

/-- An entry has been written for a definition of its number, or is as it was and none has its number. -/
theorem Session.Writes.entry {c : Container} {s s' : Session} {ds : List TypeSpec}
    (h : s.Writes c ds s') {k : Nat} {st : Struct} (hst : s'.container.structs[k]? = some st) :
    (∃ d ∈ ds, d.entryNo? c = some k ∧ d.Lists c st.members) ∨
      s.container.structs[k]? = some st ∧ ∀ d ∈ ds, d.entryNo? c ≠ some k := by
  induction h with
  | nil => exact .inr ⟨hst, fun d hd => by cases hd⟩
  | @cons s s' d ds n records hn hlists _ ih =>
      rcases ih hst with ⟨e, he, hk, hlists'⟩ | ⟨hkept, hothers⟩
      · exact .inl ⟨e, List.mem_cons_of_mem _ he, hk, hlists'⟩
      · have hkept : (s.container.structs.modify n fun st => { st with members := records })[k]? =
            some st := hkept
        rw [List.getElem?_modify] at hkept
        by_cases hnk : n = k
        · -- the entry was written for this definition
          subst hnk
          obtain ⟨old, _, rfl⟩ := Option.map_eq_some_iff.mp hkept
          exact .inl ⟨d, List.mem_cons_self, hn, by simpa using hlists⟩
        · refine .inr ⟨by simpa [hnk] using hkept, List.forall_mem_cons.mpr ⟨?_, hothers⟩⟩
          rw [hn]
          exact fun h => hnk (Option.some.inj h)

namespace Container.Alike

variable {c c' : Container}

theorem entryNo? (h : c.Alike c') (t : TypeSpec) : t.entryNo? c' = t.entryNo? c := by
  rw [TypeSpec.entryNo?, TypeSpec.entryNo?, h.structNo?]

theorem record? (h : c.Alike c') (d : VarDecl) : d.record? c' = d.record? c := by
  simp only [VarDecl.record?, TypeSpec.code?, h.entryNo?, h.newVariable]

theorem resolves (h : c.Alike c') {t t' : TypeSpec} (ht : t.Resolves c t') : t.Resolves c' t' := by
  unfold TypeSpec.Resolves
  rw [h.entryNo?]
  exact ht

end Container.Alike

/-- The entry of a struct says what its definition says. -/
def Struct.Defines (c : Container) (st : Struct) (d : TypeSpec) : Prop :=
  d.name = some st.name ∧ d.Lists c st.members

/-! ## Both walks together -/

section Settled

variable {version : Nat} {s₁ s' : Session} {ds ws : List TypeSpec}

/-- The names of the definitions are the names in the table, in the same order. -/
theorem Session.Registers.names_eq (h : (Session.ofContainer (.empty version)).Registers ds s₁) :
    (s₁.container.structs.map (·.name)).map some = ds.map (·.name) := by
  rw [h.container_eq]
  simp only [Session.ofContainer, Container.empty, List.nil_append, List.map_map]
  exact List.map_congr_left fun d hd => (h.name_eq d hd).symm

/-- The number of a definition is its position. -/
theorem Session.Registers.entryNo?_eq (h : (Session.ofContainer (.empty version)).Registers ds s₁)
    {k : Nat} {d : TypeSpec} (hd : ds[k]? = some d) : d.entryNo? s₁.container = some k := by
  have hname : (s₁.container.structs[k]?).map (fun st => some st.name) = some d.name := by
    have hk := congrArg (·[k]?) h.names_eq
    simpa [hd] using hk
  obtain ⟨st, hst, hname⟩ := Option.map_eq_some_iff.mp hname
  rw [TypeSpec.entryNo?, ← hname, Option.bind_some]
  exact findIdx?_of_nodup (h.nodup List.nodup_nil) hst

/-- After both walks every entry says what its definition says. -/
theorem Session.Writes.defines (h : (Session.ofContainer (.empty version)).Registers ds s₁)
    (hwrites : s₁.Writes s₁.container ws s') (hmem : ∀ d, d ∈ ws ↔ d ∈ ds) :
    List.Forall₂ (Struct.Defines s'.container) s'.container.structs ds := by
  have halike := hwrites.alike
  have hnames : (s'.container.structs.map (·.name)).map some = ds.map (·.name) := by
    rw [halike.names, h.names_eq]
  have hlength : s'.container.structs.length = ds.length := by
    simpa using congrArg List.length hnames
  refine List.forall₂_iff_get.mpr ⟨hlength, fun k hk hk' => ?_⟩
  have hst := List.getElem?_eq_getElem hk
  have hd := List.getElem?_eq_getElem hk'
  have hself : ds[k].name = some s'.container.structs[k].name := by
    have := congrArg (·[k]?) hnames
    simpa [hst, hd] using this.symm
  refine ⟨hself, ?_⟩
  rcases hwrites.entry hst with ⟨e, he, hek, hlists⟩ | ⟨_, hnone⟩
  · -- the definition that was written here has this number, and so it stands at this position
    obtain ⟨j, hj⟩ := List.getElem?_of_mem ((hmem e).mp he)
    have hjk : j = k := Option.some.inj ((h.entryNo?_eq hj).symm.trans hek)
    subst hjk
    rw [hd] at hj
    cases hj
    exact hlists.imp fun d v hv => (halike.record? d).trans hv
  · exact absurd (h.entryNo?_eq hd) (hnone _ ((hmem _).mpr (List.getElem_mem hk')))

end Settled

/-! ## Programs -/

/-- What is on the right of a relation between lists is related to something on the left. -/
theorem exists_of_forall₂ {α β : Type} {R : α → β → Prop} {as : List α} {bs : List β}
    (h : List.Forall₂ R as bs) {b : β} (hb : b ∈ bs) : ∃ a ∈ as, R a b := by
  induction h with
  | nil => cases hb
  | @cons a b' as bs hab _ ih =>
      rcases List.mem_cons.mp hb with rfl | hb
      · exact ⟨a, List.mem_cons_self, hab⟩
      · obtain ⟨a', ha', hab'⟩ := ih hb
        exact ⟨a', List.mem_cons_of_mem a ha', hab'⟩

/-- What is left of a type that has been resolved is a word or a struct of the table. -/
theorem TypeSpec.Resolves.entry {c : Container} {t t' : TypeSpec} (h : t.Resolves c t') :
    t'.kind.isWord = true ∨ t'.kind = .struct ∧
      ∃ n st, t'.structNo = some n ∧ c.structs[n]? = some st ∧ t'.name = some st.name := by
  obtain ⟨hname, _, ⟨hword, hkind⟩ | ⟨_, hkind, n, hn, hno⟩⟩ := h
  · exact .inl (hkind ▸ hword)
  · obtain ⟨name, hname', hn⟩ := Option.bind_eq_some_iff.mp hn
    obtain ⟨hlt, heq, _⟩ := List.findIdx?_eq_some_iff_getElem.mp hn
    refine .inr ⟨hkind, n, _, hno, List.getElem?_eq_getElem hlt, ?_⟩
    rw [hname, hname']
    exact congrArg some (of_decide_eq_true heq).symm

/--
**The struct table holds the definitions of the program.** They stand in it in the order of the text, an
outer one before those in its body, and under different names. Each entry has the named members of its
definition, with the types that the names in the table give them. Every type of the program has become
a word or a struct with the number of the entry that bears its name, and no type name and no enumeration
is left but in declarations that are a type name alone.
-/
theorem Block.structs_of_bindTypes {source : String} {version : Nat} {b b' : Block} {s' : Session}
    (hparse : Block.parse source = .ok b)
    (htypes : b.bindTypes (.ofContainer (.empty version)) = ⟨b', s', .ok ()⟩) :
    List.Forall₂ (Struct.Defines s'.container) s'.container.structs b.definitions ∧
      (s'.container.structs.map (·.name)).Nodup ∧ s'.container.version = version ∧
      List.Forall₂ (TypeSpec.Resolves s'.container) b.specs b'.specs ∧
      ∀ t ∈ b'.specs, t.kind.isWord = true ∨ t.kind = .struct ∧
        ∃ n st, t.structNo = some n ∧ s'.container.structs[n]? = some st ∧ t.name = some st.name := by
  have hends := Block.bindTypes_ends (Block.written_of_parse hparse) (.ofContainer (.empty version))
  rw [htypes] at hends
  obtain ⟨s₁, hregisters, ⟨ws, hwrites, hmem⟩, hspecs⟩ := hends.ok () rfl
  have halike := hwrites.alike
  have hresolves : List.Forall₂ (TypeSpec.Resolves s'.container) b.specs b'.specs :=
    (List.rel_flatMap hspecs fun _ _ h => h).imp fun _ _ h => halike.resolves h
  refine ⟨hwrites.defines hregisters hmem, ?_, ?_, hresolves, fun t ht => ?_⟩
  · rw [halike.names]
    exact hregisters.nodup List.nodup_nil
  · rw [halike.version, hregisters.container_eq]
    rfl
  · obtain ⟨_, _, ht⟩ := exists_of_forall₂ hresolves ht
    exact ht.entry

/-- A program whose structs refer to each other, are nested, and stand at all kinds of places. -/
def entangled : String :=
  "struct A \x7b struct B b, c; struct C \x7b int x; A a; \x7d d; struct D \x7b float z; \x7d; struct E; \x7d;
struct E f(struct E \x7b A a; \x7d e) \x7b
  for (struct B \x7b string s; C c; \x7d i;;) return e;
\x7d
struct F;"

/-- The table of that program: `B` is used before it is defined, and `D` and `E` declare no member. -/
def entangledStructs : List Struct :=
  [⟨"A", [⟨"b", none, .struct 4⟩, ⟨"c", none, .struct 4⟩, ⟨"d", none, .struct 1⟩]⟩,
    ⟨"C", [⟨"x", none, .scalar .int⟩, ⟨"a", none, .struct 0⟩]⟩,
    ⟨"D", [⟨"z", none, .scalar .float⟩]⟩, ⟨"E", [⟨"a", none, .struct 0⟩]⟩,
    ⟨"B", [⟨"s", none, .scalar .string⟩, ⟨"c", none, .struct 1⟩]⟩]

set_option maxRecDepth 100000 in
theorem Block.structs_of_bindTypes_entangled :
    ∃ b b' s', Block.parse entangled = .ok b ∧
      b.bindTypes (.ofContainer (.empty 11)) = ⟨b', s', .ok ()⟩ ∧
      s'.container.structs = entangledStructs ∧ b'.specs.length = 14 ∧
      List.Forall₂ (Struct.Defines s'.container) s'.container.structs b.definitions ∧
      List.Forall₂ (TypeSpec.Resolves s'.container) b.specs b'.specs := by
  obtain ⟨b, hparse, hrun⟩ := Block.exists_of_chars entangled (fun b =>
      let r := b.bindTypes (.ofContainer (.empty 11))
      r.result.isOk && (r.state.container.structs = entangledStructs &&
        r.tree.specs.length = 14)) rfl (by decide +kernel)
  obtain ⟨hok, hrest⟩ := Bool.and_eq_true_iff.mp hrun
  obtain ⟨hstructs, hlength⟩ := Bool.and_eq_true_iff.mp hrest
  have htypes := Step.eq_of_isOk hok
  have htable := Block.structs_of_bindTypes hparse htypes
  exact ⟨b, _, _, hparse, htypes, of_decide_eq_true hstructs, of_decide_eq_true hlength,
    htable.1, htable.2.2.2.1⟩

end Jaf
