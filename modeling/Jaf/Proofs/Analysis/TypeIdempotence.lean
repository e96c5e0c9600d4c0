import Jaf.Proofs.Analysis.StructTable

/-!
# Settling types again

The first run of the pass enters definitions, resolves names and writes members. A second run over what
the first has left takes other branches all the way: every definition has its number, no type name is
left but in declarations that the walks pass over, and the members that are written are there already.

The proof does not compare the two runs. `TypeSpec.Stands` says of a type and a container that nothing is
left to do: every struct with a body has a number, and the entry at this number has the records that its
members would have now. Binding such a type neither changes the type nor the container
(`TypeSpec.Stands.bindWithin`), so a program whose types stand stays as it is. What is left is that the
types of a program stand by the container at the end of the first run, not by the one of the moment when
they were bound; this is where the members of other structs were still to be written.
-/

namespace Jaf

/-! ## Walks that change nothing -/

/-- Two things that are known of a step are known of it together. -/
theorem Step.Ends.and {σ τ α : Type} {r : Step σ τ α} {P Q : τ → α → σ → Prop}
    {E F : SemanticError → σ → Prop} (h : r.Ends P E) (h' : r.Ends Q F) :
    r.Ends (fun t a s => P t a s ∧ Q t a s) fun _ _ => True :=
  ⟨fun a ha => ⟨h.ok a ha, h'.ok a ha⟩, fun _ _ => trivial⟩

/-- A step that succeeds and leaves the tree `t`, and a state with the property `I`. -/
def Step.Still {σ τ : Type} (I : σ → Prop) (t : τ) (r : Step σ τ Unit) : Prop :=
  ∃ s, r = ⟨t, s, .ok ()⟩ ∧ I s

namespace Step.Still

variable {σ τ υ : Type} {I : σ → Prop} {t : τ} {r : Step σ τ Unit}

theorem done {s : σ} (hs : I s) : Still I t (.done t s ()) := ⟨s, rfl, hs⟩

theorem map {wrap : τ → υ} (h : Still I t r) : Still I (wrap t) (r.map wrap) := by
  obtain ⟨s, rfl, hs⟩ := h
  exact ⟨s, rfl, hs⟩

theorem andThen {wrap : τ → υ} {next : τ → Unit → σ → Step σ υ Unit} {u : υ} (h : Still I t r)
    (hnext : ∀ s, I s → Still I u (next t () s)) : Still I u (r.andThen wrap next) := by
  obtain ⟨s, rfl, hs⟩ := h
  exact hnext s hs

end Step.Still

section Walk

open Step (Still)

variable {σ : Type} {I : σ → Prop} {f : TypeSpec → σ → Step σ TypeSpec Unit}

theorem VarDecl.still_updateTypes {ds : List VarDecl}
    (h : ∀ t ∈ ds.map (·.type), ∀ s, I s → Still I t (f t s)) {s : σ} (hs : I s) :
    Still I ds (VarDecl.updateTypes f ds s) := by
  induction ds generalizing s with
  | nil => exact .done hs
  | cons d ds ih =>
      obtain ⟨hd, hds⟩ := List.forall_mem_cons.mp h
      obtain ⟨name, type, init, slot, span⟩ := d
      exact (hd s hs).andThen fun s' hs' => (ih hds hs').map

theorem FuncHead.still_updateTypes {h : FuncHead} (hf : ∀ t ∈ h.types, ∀ s, I s → Still I t (f t s))
    {s : σ} (hs : I s) : Still I h (h.updateTypes f s) := by
  obtain ⟨hresult, hparams⟩ := List.forall_mem_cons.mp hf
  exact (hresult s hs).andThen fun s' hs' => (VarDecl.still_updateTypes hparams hs').map

/-- If every type is left as it is, then so is the whole, in its row of things. -/
theorem Step.Still.each {τ : Type} {step : τ → σ → Step σ τ Unit} {types : τ → List TypeSpec} {ts : List τ}
    (h : ∀ t ∈ ts, (∀ u ∈ types t, ∀ s, I s → Still I u (f u s)) → ∀ s, I s → Still I t (step t s))
    (hf : ∀ u ∈ ts.flatMap types, ∀ s, I s → Still I u (f u s)) (s : σ) (hs : I s) :
    Still I ts (Step.each step ts s) := by
  induction ts generalizing s with
  | nil => exact .done hs
  | cons t ts ih =>
      obtain ⟨ht, hts⟩ := List.forall_mem_cons.mp h
      rw [List.flatMap_cons] at hf
      obtain ⟨hfirst, hrest⟩ := List.forall_mem_append.mp hf
      exact (ht hfirst s hs).andThen fun s' hs' => (ih hts hrest s' hs').map

theorem Traversal.still_updateTypes : (updateTypes f).Rules
    (fun b s r => (∀ t ∈ b.types, ∀ s, I s → Still I t (f t s)) → I s → Still I b r)
    (fun i s r => (∀ t ∈ TreeList.types.item i, ∀ s, I s → Still I t (f t s)) → I s → Still I i r)
    (fun x s r => (∀ t ∈ TreeList.types.stmt x, ∀ s, I s → Still I t (f t s)) → I s → Still I x r)
    fun c s r => (∀ t ∈ TreeList.types.clause c, ∀ s, I s → Still I t (f t s)) → I s → Still I c r where
  block items p hitems s h hs := by
    have h : ∀ t ∈ TreeList.types.block ⟨items, p⟩, ∀ s, I s → Still I t (f t s) := h
    rw [TreeList.types.block_eq] at h
    exact (Step.Still.each (fun i hi h s hs => hitems i hi s h hs) h s hs).map
  var d s h hs := by
    refine Still.map ?_
    show Still I d (if d.isForward then _ else _)
    split
    next => exact .done hs
    next hd =>
      have htype : d.type ∈ Item.typesOf (Item.declarations (.var d)) := by
        simp [Item.typesOf, Item.types, hd]
      obtain ⟨name, type, init, slot, span⟩ := d
      exact (h type htype s hs).map
  func head body hbody s h hs := by
    show Still I (.func head body) ((Item.func head body).updateTypes f s)
    unfold Item.updateTypes
    obtain ⟨hhead, htypes⟩ := List.forall_mem_append.mp h
    exact (FuncHead.still_updateTypes hhead hs).andThen fun s' hs' => (hbody s' htypes hs').map
  stmt x hx s h hs := (hx s h hs).map
  value _ s _ hs := .done hs
  result _ _ s _ hs := .done hs
  scope b hb s h hs := (hb s h hs).map
  opening b hb s h hs := (hb s h hs).map
  inner x hx s h hs := (hx s h hs).map
  clauses x hclauses s h hs := by
    have h : ∀ t ∈ Item.typesOf x.declarations, ∀ s, I s → Still I t (f t s) := h
    rw [Stmt.types_clauses] at h
    rw [plain_updateTypes.clauses_eq]
    have hall := Step.Still.each (fun c hc h s hs => hclauses c hc s h hs) h s hs
    have hstmt : Still I (x.withClauses x.clauses) (Step.map x.withClauses _) := hall.map
    rwa [Stmt.withClauses_clauses] at hstmt

/-- **A walk that changes no type changes nothing.** -/
theorem Block.still_updateTypes (b : Block) (h : ∀ t ∈ b.types, ∀ s, I s → Still I t (f t s)) (s : σ)
    (hs : I s) : Still I b (b.updateTypes f s) := Traversal.still_updateTypes.forBlock b s h hs

end Walk

/-! ## Types that stand -/

/-- The session has this container, whatever it has logged. -/
def Session.Has (c : Container) (s : Session) : Prop := s.container = c

/-- The records of members whose types are bound, one list for each member. -/
def VarDecl.Records (c : Container) (ds : List VarDecl) (records : List (List Variable)) : Prop :=
  List.Forall₂ (fun d vs => TypeSpec.memberRecord c d = .ok vs) ds records

/--
A type that nothing is left to do with by the given container: it is a word or a struct, and if it has a
body then the entry at its number has the records of its members, and their types stand too.
-/
inductive TypeSpec.Stands (c : Container) : TypeSpec → Prop
  | word {t : TypeSpec} : t.kind.isWord = true → Stands c t
  | struct {t : TypeSpec} : t.kind = .struct → t.members = none → Stands c t
  | body {tag : Option String} {n : Nat} {ds : List VarDecl} {p : Span} {name : String}
      {records : List (List Variable)} :
      c.structs[n]? = some ⟨name, records.flatten⟩ → VarDecl.Records c ds records →
      (∀ d ∈ ds, d.isForward = false → d.type.Stands c) → Stands c ⟨.struct, tag, some n, some ds, p⟩

/-- Members that an entry has already are written to no effect. -/
theorem Container.setMembers_same {c : Container} {n : Nat} {st : Struct} (h : c.structs[n]? = some st) :
    c.setMembers n st.members = c := by
  have hsame : c.structs.modify n (fun s => { s with members := st.members }) = c.structs := by
    refine List.ext_getElem? fun i => ?_
    rw [List.getElem?_modify]
    by_cases hi : n = i
    · subst hi
      simp [h]
    · simp [hi]
  rw [Container.setMembers, hsame]

namespace TypeSpec

variable {c : Container}

/-- A type that stands is not entered again. -/
theorem Stands.registerNew {t : TypeSpec} (h : t.Stands c) (s : Session) :
    t.registerNew s = .done t s () := by
  have hunregistered : t.isUnregistered = false := by
    unfold isUnregistered
    cases h with
    | word hword =>
        cases hkind : t.kind with
        | struct => rw [hkind] at hword; cases hword
        | _ => rfl
    | struct _ hmembers => simp [hmembers]
    | body => simp
  rw [TypeSpec.registerNew, hunregistered, if_neg Bool.false_ne_true]

/-- Members whose types stay as they are stay as they are, and give the records that they have. -/
theorem bindMembers_still {bind : TypeSpec → Session → Step Session TypeSpec Unit} {ds : List VarDecl}
    {records : List (List Variable)} (hrecords : VarDecl.Records c ds records)
    (hbind : ∀ d ∈ ds, d.isForward = false → ∀ s : Session, s.Has c →
      Step.Still (Session.Has c) d.type (bind d.type s))
    {s : Session} (hs : s.Has c) :
    ∃ s', bindMembers bind ds s = ⟨ds, s', .ok records.flatten⟩ ∧ s'.Has c := by
  induction hrecords generalizing s with
  | nil => exact ⟨s, rfl, hs⟩
  | @cons d vs ds records hd _ ih =>
      obtain ⟨hfirst, hrest⟩ := List.forall_mem_cons.mp hbind
      unfold bindMembers
      cases hforward : d.isForward with
      | true =>
          -- a member that is a type name alone has no record
          obtain ⟨s', hs', hc⟩ := ih hrest hs
          have hnone : vs = [] := by
            rw [memberRecord, VarDecl.name_of_isForward hforward] at hd
            exact (Except.ok.inj hd).symm
          rw [if_pos rfl, hs', hnone]
          exact ⟨s', rfl, hc⟩
      | false =>
          obtain ⟨s₁, hs₁, hc₁⟩ := hfirst hforward s hs
          obtain ⟨s', hs', hc⟩ := ih hrest hc₁
          have hd' : memberRecord s₁.container d = .ok vs := by rw [hc₁]; exact hd
          obtain ⟨name, type, init, slot, span⟩ := d
          refine ⟨s', ?_, hc⟩
          rw [if_neg Bool.false_ne_true, hs₁]
          simp only [Step.andThen, hd', hs']
          rfl

/-- **Binding a type that stands changes nothing.** -/
theorem Stands.bindWithin {t : TypeSpec} (h : t.Stands c) : ∀ {m : Nat} {s : Session}, t.height ≤ m →
    s.Has c → Step.Still (Session.Has c) t (TypeSpec.bindWithin m t s) := by
  induction h with
  | @word t hword =>
      intro m s _ hs
      have hdone : TypeSpec.bindWithin m t s = .done t s () := by
        unfold TypeSpec.bindWithin
        cases hkind : t.kind with
        | void | int | float | string => rfl
        | struct | enum | typedef => rw [hkind] at hword; cases hword
      rw [hdone]
      exact .done hs
  | @struct t hkind hmembers =>
      intro m s _ hs
      have hdone : TypeSpec.bindWithin m t s = .done t s () := by
        unfold TypeSpec.bindWithin
        rw [hkind]
        cases m with
        | zero => rfl
        | succ m => simp [hmembers]
      rw [hdone]
      exact .done hs
  | @body tag n ds p name records hentry hrecords _ ih =>
      intro m s hm hs
      rw [height] at hm
      obtain ⟨m, rfl⟩ : ∃ k, m = k + 1 := ⟨m - 1, by omega⟩
      rw [bindWithin_numbered]
      obtain ⟨s', hs', hc⟩ := bindMembers_still hrecords (fun d hd hforward s hs =>
        ih d hd hforward (Nat.le_trans (height_le_heightOf hd) (Nat.le_of_succ_le_succ hm)) hs) hs
      rw [hs']
      refine ⟨_, rfl, ?_⟩
      show s'.container.setMembers n records.flatten = c
      rw [hc]
      exact Container.setMembers_same hentry

/-! ## The types of a program stand -/

/-- The entry of a struct definition has the records of its members. -/
def Recorded (c : Container) (d : TypeSpec) : Prop :=
  ∃ n st, d.entryNo? c = some n ∧ c.structs[n]? = some st ∧ d.Lists c st.members

variable {c' : Container}

theorem bindMembers_stands {bind : TypeSpec → Session → Step Session TypeSpec Unit} {ds : List VarDecl}
    (hc : c.Alike c')
    (hbind : ∀ d ∈ ds, ∀ s : Session, c.Alike s.container → (bind (d.type.numbered c) s).Ends
      (fun t' _ s' => Bound c s d.type t' s' ∧ t'.Stands c') fun _ _ => True)
    {s : Session} (hs : c.Alike s.container) :
    (bindMembers bind (VarDecl.numberedAll c ds) s).Ends
      (fun ds' _ _ => (∀ d ∈ ds', d.isForward = false → d.type.Stands c') ∧
        ∃ records, VarDecl.Records c' ds' records ∧
          List.Forall₂ (fun d v => d.record? c = some v) (ds.filter (·.name.isSome)) records.flatten)
      fun _ _ => True := by
  induction ds generalizing s with
  | nil => exact .done ⟨by simp, [], .nil, .nil⟩
  | cons d ds ih =>
      obtain ⟨hfirst, hrest⟩ := List.forall_mem_cons.mp hbind
      rw [VarDecl.numberedAll_cons, bindMembers, VarDecl.isForward_numbered]
      split
      next hf =>
        refine .map ((ih hrest hs).mono ?_ fun _ _ _ => trivial)
        rintro ds' _ s' ⟨hstand, records, hrecords, hlists⟩
        have hname := VarDecl.name_of_isForward hf
        refine ⟨List.forall_mem_cons.mpr ⟨fun h => ?_, hstand⟩, [] :: records, .cons ?_ hrecords, ?_⟩
        · rw [VarDecl.isForward_numbered, hf] at h
          cases h
        · rw [memberRecord, hname]
        · rw [List.filter_cons, hname]
          exact hlists
      next hf =>
        refine (hfirst s hs).andThen ?_
        rintro t' _ s₁ ⟨⟨hwrites, hspecs⟩, ht'⟩
        have hresolves := resolves_of_specs hspecs
        have hs₁ := hs.trans hwrites.alike
        obtain ⟨_, hnow, _⟩ := memberRecord_eq_ok hs₁ hresolves
        obtain ⟨vs, hvs, hrecord⟩ := memberRecord_eq_ok hc hresolves
        dsimp only
        rw [hnow]
        refine Step.Ends.andThen (ih hrest hs₁) ?_
        rintro ds' _ s' ⟨hstand, records, hrecords, hlists⟩
        refine .done ⟨List.forall_mem_cons.mpr ⟨fun _ => ht', hstand⟩, vs :: records,
          .cons hvs hrecords, ?_⟩
        rw [← List.singleton_append, List.filter_append]
        exact List.rel_append hrecord hlists

theorem known_of_recorded (hc : c.Alike c') {ds : List TypeSpec} (h : ∀ d ∈ ds, d.Recorded c') :
    ∀ d ∈ ds, ∃ n, d.entryNo? c = some n := by
  intro d hd
  obtain ⟨n, _, hn, _⟩ := h d hd
  exact ⟨n, by rw [← hc.entryNo?]; exact hn⟩

/-- What binding leaves stands by every later container in which the definitions are recorded. -/
theorem Written.bindWithin_stands {t : TypeSpec} (h : t.Written) (hc : c.Alike c') :
    ∀ {m : Nat} {s : Session}, (t.numbered c).height ≤ m → (∀ d ∈ t.definitions, d.Recorded c') →
      c.Alike s.container →
      (TypeSpec.bindWithin m (t.numbered c) s).Ends (fun t' _ _ => t'.Stands c') fun _ _ => True := by
  induction h with
  | @word kind p hword =>
      intro m s hm _ _
      have hstands : (simple kind p).Stands s.container := .word hword
      obtain ⟨s', hdone, _⟩ := hstands.bindWithin hm rfl
      have hself : (simple kind p).numbered c = simple kind p := rfl
      rw [hself, hdone]
      exact .done (.word hword)
  | @named name p =>
      intro m s _ _ _
      unfold TypeSpec.bindWithin
      show (bindName (.named name p) s).Ends _ _
      unfold bindName
      dsimp only
      split
      next => exact .done (.struct rfl rfl)
      next => exact .fail trivial
  | enum =>
      intro m s _ _ _
      unfold TypeSpec.bindWithin
      exact .fail trivial
  | @body tag ds p _ htypes ih =>
      intro m s hm hrecorded hs
      rw [definitions_body] at hrecorded
      obtain ⟨⟨n, st, hn, hst, hlists⟩, hrecorded⟩ := List.forall_mem_cons.mp hrecorded
      have hn' : tag.bind c.structNo? = some n := by rw [← hn, hc.entryNo?]; rfl
      have hnumbered : (TypeSpec.body tag ds p).numbered c =
          ⟨.struct, tag, some n, some (VarDecl.numberedAll c ds), p⟩ := by
        rw [← hn']; rfl
      rw [hnumbered] at hm ⊢
      obtain ⟨m, rfl⟩ : ∃ k, m = k + 1 := ⟨m - 1, by rw [height] at hm; omega⟩
      rw [bindWithin_numbered]
      refine Step.Ends.andThen (bindMembers_stands hc ?_ hs) ?_
      · intro d hd s hs
        have hheight : (d.type.numbered c).height ≤ heightOf (VarDecl.numberedAll c ds) :=
          height_le_heightOf (VarDecl.mem_numberedAll c hd)
        have hheight' : (d.type.numbered c).height ≤ m := by rw [height] at hm; omega
        have hinner : ∀ e ∈ d.type.definitions, e.Recorded c' :=
          fun e he => hrecorded e ((VarDecl.mem_definitionsOf htypes).mpr ⟨d, hd, he⟩)
        exact ((htypes d hd).bindWithin_ends hheight' (known_of_recorded hc hinner) hs).and
          (ih d hd hheight' hinner hs)
      · rintro ds' _ s' ⟨hstand, records, hrecords, hlists'⟩
        -- the entry and the members that have been bound are read off the same definition
        have hsame : st.members = records.flatten := by
          have hlists : List.Forall₂ (fun d v => d.record? c = some v)
              (TypeSpec.body tag ds p).namedMembers st.members :=
            hlists.imp fun d v hv => (hc.record? d).symm.trans hv
          refine List.right_unique_forall₂' (fun d v w hv hw => ?_) hlists hlists'
          exact Option.some.inj (hv.symm.trans hw)
        obtain ⟨name, members⟩ := st
        obtain rfl : members = records.flatten := hsame
        exact .done (.body hst hrecords hstand)

theorem each_bind_stands {ts : List TypeSpec} (hts : ∀ t ∈ ts, t.Written) (hc : c.Alike c')
    (hrecorded : ∀ d ∈ ts.flatMap definitions, d.Recorded c') {s : Session} (hs : c.Alike s.container) :
    (Step.each bind (ts.map (·.numbered c)) s).Ends (fun ts' _ _ => ∀ t ∈ ts', t.Stands c')
      fun _ _ => True := by
  induction ts generalizing s with
  | nil => exact .done (List.forall_mem_nil _)
  | cons t ts ih =>
      obtain ⟨ht, hts⟩ := List.forall_mem_cons.mp hts
      rw [List.flatMap_cons] at hrecorded
      obtain ⟨hfirst, hrest⟩ := List.forall_mem_append.mp hrecorded
      rw [List.map_cons, Step.each]
      have hbound := ht.bindWithin_ends (Nat.le_refl _) (known_of_recorded hc hfirst) hs
      refine (hbound.and (ht.bindWithin_stands hc (Nat.le_refl _) hfirst hs)).andThen ?_
      rintro t' _ s₁ ⟨⟨hwrites, _⟩, ht'⟩
      refine .map ((ih hts hrest (hs.trans hwrites.alike)).mono (fun ts' _ _ hts' => ?_) fun _ _ h => h)
      exact List.forall_mem_cons.mpr ⟨ht', hts'⟩

end TypeSpec

/-! ## Programs -/

/-- After both walks every definition is recorded. -/
theorem Session.Writes.recorded {version : Nat} {s₁ s' : Session} {ds ws : List TypeSpec}
    (hwrites : s₁.Writes s₁.container ws s')
    (h : (Session.ofContainer (.empty version)).Registers ds s₁) (hmem : ∀ d, d ∈ ws ↔ d ∈ ds) :
    ∀ d ∈ ds, d.Recorded s'.container := by
  intro d hd
  obtain ⟨st, hst, hname, hlists⟩ := exists_of_forall₂ (hwrites.defines h hmem) hd
  obtain ⟨n, hn⟩ := List.getElem?_of_mem hst
  have hnodup : (s'.container.structs.map (·.name)).Nodup := by
    rw [hwrites.alike.names]
    exact h.nodup List.nodup_nil
  refine ⟨n, st, ?_, hn, hlists⟩
  rw [TypeSpec.entryNo?, hname, Option.bind_some]
  exact findIdx?_of_nodup hnodup hn

namespace Block

/-- **The types of a program stand after the first run**, by the container that it ends with. -/
theorem stands_bindTypes {version : Nat} {b b' : Block} {s' : Session}
    (hb : ∀ i ∈ b.declarations, i.Written)
    (htypes : b.bindTypes (.ofContainer (.empty version)) = ⟨b', s', .ok ()⟩) :
    ∀ t ∈ b'.types, t.Stands s'.container := by
  have hwritten := written_types hb
  obtain ⟨b₁, s₁, _, hfirst, hsecond⟩ := Step.andThen_eq_ok.mp htypes
  have hends := TypeSpec.each_registerNew_ends hwritten (.ofContainer (.empty version))
  rw [← types_updateTypes TypeSpec.addsNoName_registerNew, hfirst] at hends
  obtain ⟨hregisters, hnumbered⟩ := hends.ok () rfl
  have hnumbered : b₁.types = b.types.map (·.numbered s₁.container) := hnumbered _ (.refl _)
  have hrun := types_updateTypes TypeSpec.addsNoName_bind b₁ s₁
  rw [hsecond, hnumbered] at hrun
  -- what the second walk has written is what the definitions say
  have hwrites := TypeSpec.each_bind_ends hwritten
    (fun d hd => (hregisters.entryNo? hd).imp fun _ h => h.2) (.refl s₁.container)
  rw [← hrun] at hwrites
  obtain ⟨⟨ws, hws, hmem⟩, _⟩ := hwrites.ok () rfl
  have hstands := TypeSpec.each_bind_stands hwritten hws.alike (hws.recorded hregisters hmem)
    (.refl s₁.container)
  rw [← hrun] at hstands
  exact hstands.ok () rfl

/--
**Settling types twice is settling them once.** If settling the types of a parsed program with a new
container succeeds, then doing it again with the tree and the container that it has left succeeds too, and
leaves both as they are.
-/
theorem bindTypes_again {source : String} {version : Nat} {b b' : Block} {s' : Session}
    (hparse : Block.parse source = .ok b)
    (htypes : b.bindTypes (.ofContainer (.empty version)) = ⟨b', s', .ok ()⟩) (log : List LogEvent) :
    ∃ log', b'.bindTypes ⟨s'.container, log⟩ = ⟨b', ⟨s'.container, log'⟩, .ok ()⟩ := by
  have hstands := stands_bindTypes (Block.written_of_parse hparse) htypes
  have hfirst := b'.still_updateTypes (I := Session.Has s'.container)
    (f := TypeSpec.registerNew) fun t ht s hs => by
      rw [(hstands t ht).registerNew]
      exact .done hs
  have hsecond := b'.still_updateTypes (I := Session.Has s'.container)
    (f := TypeSpec.bind) fun t ht s hs => (hstands t ht).bindWithin (Nat.le_refl _) hs
  have hboth : Step.Still (Session.Has s'.container) b'
      (b'.bindTypes ⟨s'.container, log⟩) := (hfirst ⟨s'.container, log⟩ rfl).andThen hsecond
  obtain ⟨⟨c, log'⟩, hrun, rfl⟩ := hboth
  exact ⟨log', hrun⟩

end Block

/-- A program whose structs refer to each other across a body in a body. -/
def crossing : String :=
  "struct A \x7b struct B b; struct C \x7b A a; \x7d c; struct D; \x7d;
void f(struct B \x7b int x; C c; \x7d b) \x7b\x7d"

/-- The table of that program, after one run as after two. -/
def crossingStructs : List Struct :=
  [⟨"A", [⟨"b", none, .struct 2⟩, ⟨"c", none, .struct 1⟩]⟩, ⟨"C", [⟨"a", none, .struct 0⟩]⟩,
    ⟨"B", [⟨"x", none, .scalar .int⟩, ⟨"c", none, .struct 1⟩]⟩]

set_option maxRecDepth 100000 in
theorem Block.bindTypes_again_crossing :
    ∃ b b' s', Block.parse crossing = .ok b ∧
      b.bindTypes (.ofContainer (.empty 11)) = ⟨b', s', .ok ()⟩ ∧
      s'.container.structs = crossingStructs ∧
      ∃ log', b'.bindTypes ⟨s'.container, s'.log⟩ = ⟨b', ⟨s'.container, log'⟩, .ok ()⟩ := by
  obtain ⟨b, hparse, hrun⟩ := Block.exists_of_chars crossing (fun b =>
      let r := b.bindTypes (.ofContainer (.empty 11))
      r.result.isOk && r.state.container.structs = crossingStructs) rfl (by decide +kernel)
  obtain ⟨hok, hstructs⟩ := Bool.and_eq_true_iff.mp hrun
  have htypes := Step.eq_of_isOk hok
  exact ⟨b, _, _, hparse, htypes, of_decide_eq_true hstructs, Block.bindTypes_again hparse htypes _⟩

end Jaf
