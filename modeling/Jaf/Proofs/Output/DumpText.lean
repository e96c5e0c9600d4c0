import Jaf.Proofs.Analysis.AnalysisOutcomes
import Jaf.Proofs.Analysis.InitialValues
import Jaf.Proofs.Analysis.Provenance
import Jaf.Proofs.Output.ListingText

/-!
# The dump tells the tables

The dump of a container is the text of its listing (`Container.toList_dump`), so it tells the listing. The
listing of a well-formed container leaves nothing out (`Container.eq_of_listing`): a struct type is shown by
a name, which belongs to one struct only; the second names follow from the version; and the table of initial
values has a record for each global that is shown with a value, in the order of the globals.

A container that analysis has filled is well-formed and has words for names, so its dump tells all of it
(`Block.dump_tells`).
-/

namespace Jaf

/-! ## The listing of a container -/

namespace Container

/-- A variable as the dump shows it. -/
def label (c : Container) (v : Variable) : Label := ⟨c.typeName v.type, v.name⟩

def structEntry (c : Container) (s : Struct) : StructEntry := ⟨s.name, s.members.map c.label⟩

def functionEntry (c : Container) (f : Function) : FunctionEntry :=
  ⟨⟨c.typeName f.result, f.name⟩, f.params.map c.label, f.locals.map c.label⟩

def globalEntry (c : Container) (n : Nat) (g : Variable) : GlobalEntry := ⟨c.label g, c.initialValue? n⟩

/-- What the dump shows of the container. -/
def listing (c : Container) : Listing where
  version := c.version
  structs := c.structs.map c.structEntry
  functions := c.functions.map c.functionEntry
  globals := c.globals.zipIdx.map fun p => c.globalEntry p.2 p.1

/-- The texts of entries that stand with their positions. -/
theorem toList_join_zipIdx {α β : Type} {line : α × Nat → String} (write : Nat → β → List Char)
    (entry : Nat → α → β) {as : List α} {n : Nat}
    (hline : ∀ n a, (line (a, n)).toList = write n (entry n a)) :
    (String.join ((as.zipIdx n).map line)).toList =
      numbered write n ((as.zipIdx n).map fun p => entry p.2 p.1) := by
  rw [String.toList_join]
  induction as generalizing n with
  | nil => rfl
  | cons a as ih =>
      rw [List.zipIdx_cons, List.map_cons, List.flatMap_cons, List.map_cons, numbered, ih, hline]

/-- The same where the position plays no part in the entry. -/
theorem toList_join_numbered {α β : Type} {line : α × Nat → String} (write : Nat → β → List Char)
    (entry : α → β) {as : List α} {n : Nat} (hline : ∀ n a, (line (a, n)).toList = write n (entry a)) :
    (String.join ((as.zipIdx n).map line)).toList = numbered write n (as.map entry) := by
  have hentries : (as.zipIdx n).map (fun p => entry p.1) = as.map entry := by
    rw [← List.zipIdx_map_fst n as, List.map_map, List.zipIdx_map_fst]
    rfl
  rw [toList_join_zipIdx write (fun _ => entry) hline, hentries]

theorem toList_variableText (c : Container) (v : Variable) :
    (c.variableText v).toList = (c.label v).text := by
  simp [variableText, label, Label.text]

theorem toList_members (c : Container) (vs : List Variable) (n : Nat) :
    (String.join (vs.map fun v => " " ++ c.variableText v ++ ";")).toList =
      numbered (fun _ => StructEntry.memberText) n (vs.map c.label) := by
  rw [String.toList_join]
  induction vs generalizing n with
  | nil => rfl
  | cons v vs ih =>
      rw [List.map_cons, List.flatMap_cons, List.map_cons, numbered, ← ih]
      simp [toList_variableText, StructEntry.memberText]

theorem toList_params (c : Container) (vs : List Variable) :
    (", ".intercalate (vs.map c.variableText)).toList = FunctionEntry.paramsText (vs.map c.label) := by
  have hothers : ∀ (v : Variable) (vs : List Variable) (n : Nat),
      [',', ' '].intercalate (((v :: vs).map c.variableText).map String.toList) =
        (c.label v).text ++ numbered (fun _ l => [',', ' '] ++ Label.text l) n (vs.map c.label) := by
    intro v vs n
    induction vs generalizing v n with
    | nil => simp [numbered, toList_variableText]
    | cons w vs ih =>
        rw [List.map_cons, List.map_cons, List.map_cons, List.map_cons, List.intercalate_cons_cons,
          ← List.map_cons, ← List.map_cons, ih w (n + 1), List.map_cons, numbered, toList_variableText]
        simp
  rw [String.toList_intercalate]
  cases vs with
  | nil => rfl
  | cons v vs => exact hothers v vs 0

theorem toList_structLine (c : Container) (n : Nat) (s : Struct) :
    (c.structLine n s).toList = (c.structEntry s).line n := by
  simp [structLine, structEntry, StructEntry.line, lineHead, structWord, toList_members c s.members 0]

theorem toList_localsText (c : Container) (f : Function) :
    (c.localsText f).toList = FunctionEntry.localsText f.params.length (f.locals.map c.label) := by
  have hlocal : ∀ slot v, (" [" ++ toString slot ++ "] " ++ c.variableText v).toList =
      FunctionEntry.slotText slot ++ (c.label v).text := by
    intro slot v
    simp [FunctionEntry.slotText, toList_variableText]
  unfold localsText
  cases hlocals : f.locals with
  | nil => rfl
  | cons v vs =>
      -- there are locals, so there are as many parameters as the function says
      have hcount : f.params.length = f.argCount := by
        have hlength := congrArg List.length hlocals
        rw [Function.locals, List.length_drop, List.length_cons] at hlength
        rw [Function.params, List.length_take]
        omega
      rw [List.map_cons, FunctionEntry.localsText, ← List.map_cons, hcount]
      simp only [String.toList_append]
      rw [toList_join_numbered (fun slot l => FunctionEntry.slotText slot ++ Label.text l) c.label]
      · simp
      · exact hlocal

theorem toList_functionLine (c : Container) (n : Nat) (f : Function) :
    (c.functionLine n f).toList = (c.functionEntry f).line n := by
  have hword : "function ".toList = ['f', 'u', 'n', 'c', 't', 'i', 'o', 'n'] ++ [' '] := String.toList_ofList
  unfold functionLine functionEntry FunctionEntry.line lineHead Label.text
  simp only [String.toList_append, toList_params, toList_localsText, hword, List.append_assoc,
    List.length_map]
  simp

theorem toList_globalLine (c : Container) (n : Nat) (g : Variable) :
    (c.globalLine n g).toList = (c.globalEntry n g).line n := by
  unfold globalLine
  cases hvalue : c.initialValue? n <;>
    simp [globalEntry, GlobalEntry.line, GlobalEntry.valueText, lineHead, toList_variableText, hvalue]

/-- **The dump shows the listing.** -/
theorem toList_dump (c : Container) : c.dump.toList = c.listing.text := by
  unfold dump
  simp only [String.toList_append]
  rw [toList_join_numbered StructEntry.line c.structEntry,
    toList_join_numbered FunctionEntry.line c.functionEntry,
    toList_join_zipIdx GlobalEntry.line c.globalEntry]
  · simp [Listing.text, Listing.versionHead, listing]
  · exact c.toList_globalLine
  · exact c.toList_functionLine
  · exact c.toList_structLine

/-! ## What a listing shows of types -/

section Types

variable {c c' : Container} {t t' : TypeCode}

/-- A type of the tables is shown by its word, or by the name of its struct. -/
theorem typeName_cases (ht : t.Within c.structs.length) :
    (t = .scalar t.data ∧ t.data ≠ .struct ∧ c.typeName t = t.data.text) ∨
      ∃ n s, t = .struct n ∧ c.structs[n]? = some s ∧ c.typeName t = "struct " ++ s.name := by
  obtain ⟨data, structNo⟩ := t
  cases structNo with
  | none => exact .inl ⟨rfl, fun hdata => absurd (ht.struct.mpr hdata) (by simp), rfl⟩
  | some n =>
      have hs := List.getElem?_eq_getElem (ht.bound n rfl)
      have hdata : data = .struct := ht.struct.mp rfl
      exact .inr ⟨n, _, by rw [hdata]; rfl, hs, by simp [typeName, hs]⟩

theorem word_data (d : DataKind) : Word d.text.toList := by
  cases d <;> exact List.all_eq_true.mp rfl

theorem typeText_typeName (ht : t.Within c.structs.length) (hnames : ∀ s ∈ c.structs, Word s.name.toList) :
    TypeText (c.typeName t).toList := by
  rcases typeName_cases ht with ⟨_, hdata, htext⟩ | ⟨n, s, _, hs, htext⟩
  · refine .scalar (htext ▸ word_data t.data) ?_
    rw [htext]
    cases hd : t.data with
    | struct => exact absurd hd hdata
    | _ => decide
  · exact .struct (hnames s (List.mem_of_getElem? hs)) (by rw [htext, String.toList_append]; rfl)

/-- Where structs have the same names, each its own, the same text means the same type. -/
theorem typeName_inj (hnames : c.structs.map (·.name) = c'.structs.map (·.name))
    (hnodup : (c.structs.map (·.name)).Nodup) (ht : t.Within c.structs.length)
    (ht' : t'.Within c'.structs.length) (h : c.typeName t = c'.typeName t') : t = t' := by
  have hblank : ∀ (d : DataKind) (name : String), d.text ≠ "struct " ++ name := by
    intro d name hd
    have hmem : ' ' ∈ d.text.toList := by simp [hd]
    exact absurd (word_data d ' ' hmem) (by decide)
  have hdata : ∀ d d' : DataKind, d.text = d'.text → d = d' := by
    intro d d' h
    cases d <;> cases d' <;> simp [DataKind.text] at h ⊢
  rcases typeName_cases ht with ⟨hscalar, _, htext⟩ | ⟨n, s, hstruct, hs, htext⟩ <;>
    rcases typeName_cases ht' with ⟨hscalar', _, htext'⟩ | ⟨n', s', hstruct', hs', htext'⟩ <;>
    rw [htext, htext'] at h
  · rw [hscalar, hscalar', hdata _ _ h]
  · exact absurd h (hblank _ _)
  · exact absurd h.symm (hblank _ _)
  · have hname : s.name = s'.name := by simpa using h
    have hn : (c.structs.map (·.name))[n]? = some s.name := by simp [hs]
    have hn' : (c.structs.map (·.name))[n']? = some s'.name := by simp [hnames, hs']
    have hlt : n < (c.structs.map (·.name)).length := (List.getElem?_eq_some_iff.mp hn).1
    have hnn' : n = n' := (List.getElem?_inj hlt hnodup).mp (by rw [hn, hn', hname])
    rw [hstruct, hstruct', hnn']

end Types

/-- Names that are words make a listing that can be read. -/
theorem readable_listing {m : Stock} (hname : ∀ name, m.name name → Word name.toList) {c : Container}
    (hc : c.WellFormed) (hnamed : c.Named m) : c.listing.Readable := by
  have htype : ∀ {t : TypeCode}, t.Within c.structs.length → TypeText (c.typeName t).toList := fun ht =>
    typeText_typeName ht fun s hs => hname _ (hnamed.structs s hs).1
  have hlabels : ∀ {vs : List Variable}, (∀ v ∈ vs, v.Within c.version c.structs.length) →
      (∀ v ∈ vs, m.name v.name) → ∀ l ∈ vs.map c.label, l.Readable := by
    intro vs hvs hnames l hl
    obtain ⟨v, hv, rfl⟩ := List.mem_map.mp hl
    exact ⟨htype (hvs v hv).type, hname _ (hnames v hv)⟩
  refine ⟨fun e he => ?_, fun e he => ?_, fun e he => ?_⟩
  · obtain ⟨s, hs, rfl⟩ := List.mem_map.mp he
    exact ⟨hname _ (hnamed.structs s hs).1, hlabels (hc.members s hs) (hnamed.structs s hs).2⟩
  · obtain ⟨f, hf, rfl⟩ := List.mem_map.mp he
    obtain ⟨hresult, hvars, _⟩ := hc.functions f hf
    obtain ⟨hfname, hnames⟩ := hnamed.functions f hf
    exact ⟨⟨htype hresult, hname _ hfname⟩,
      hlabels (fun v hv => hvars v (List.mem_of_mem_take hv)) fun v hv => hnames v (List.mem_of_mem_take hv),
      hlabels (fun v hv => hvars v (List.mem_of_mem_drop hv)) fun v hv => hnames v (List.mem_of_mem_drop hv)⟩
  · obtain ⟨p, hp, rfl⟩ := List.mem_map.mp he
    have hmem : p.1 ∈ c.globals := List.fst_mem_of_mem_zipIdx hp
    exact ⟨htype (hc.globals _ hmem).type, hname _ (hnamed.globals _ hmem)⟩

/-! ## A listing leaves nothing out -/

/-- The table of initial values has a record for each global that has a value, in the order of globals. -/
def Ordered (c : Container) : Prop :=
  c.initvals = (List.range c.globals.length).filterMap fun n => (c.initialValue? n).map (⟨n, ·⟩)

/-- Two lists with the same entries are the same, if an entry is that of one thing only. -/
theorem eq_of_map_eq {α β : Type} {f g : α → β} {as bs : List α}
    (hinj : ∀ a ∈ as, ∀ b ∈ bs, f a = g b → a = b) (h : as.map f = bs.map g) : as = bs := by
  induction as generalizing bs with
  | nil => exact (List.map_eq_nil_iff.mp h.symm).symm
  | cons a as ih =>
      cases bs with
      | nil => cases h
      | cons b bs =>
          obtain ⟨hab, hrest⟩ := List.cons.inj h
          rw [hinj a List.mem_cons_self b List.mem_cons_self hab,
            ih (fun a ha b hb => hinj a (List.mem_cons_of_mem _ ha) b (List.mem_cons_of_mem _ hb)) hrest]

section Entries

variable {c c' : Container} (hversion : c.version = c'.version)
  (hnames : c.structs.map (·.name) = c'.structs.map (·.name)) (hnodup : (c.structs.map (·.name)).Nodup)

include hversion hnames hnodup

theorem eq_of_labels {vs vs' : List Variable} (hvs : ∀ v ∈ vs, v.Within c.version c.structs.length)
    (hvs' : ∀ v ∈ vs', v.Within c'.version c'.structs.length) (h : vs.map c.label = vs'.map c'.label) :
    vs = vs' := by
  refine eq_of_map_eq (fun v hv v' hv' hlabel => ?_) h
  obtain ⟨htype, hsecond⟩ := hvs v hv
  obtain ⟨htype', hsecond'⟩ := hvs' v' hv'
  have hname : v.name = v'.name := congrArg Label.name hlabel
  have htypes : v.type = v'.type := typeName_inj hnames hnodup htype htype' (congrArg Label.type hlabel)
  rw [← hversion, ← hsecond] at hsecond'
  cases v
  cases v'
  simp_all

theorem eq_of_structEntry {s s' : Struct} (hs : ∀ v ∈ s.members, v.Within c.version c.structs.length)
    (hs' : ∀ v ∈ s'.members, v.Within c'.version c'.structs.length)
    (h : c.structEntry s = c'.structEntry s') : s = s' := by
  have hname : s.name = s'.name := congrArg StructEntry.name h
  have hmembers : s.members = s'.members :=
    eq_of_labels hversion hnames hnodup hs hs' (congrArg StructEntry.members h)
  cases s
  cases s'
  rw [Struct.mk.injEq]
  exact ⟨hname, hmembers⟩

theorem eq_of_functionEntry {f f' : Function} (hf : f.Within c.version c.structs.length)
    (hf' : f'.Within c'.version c'.structs.length) (h : c.functionEntry f = c'.functionEntry f') :
    f = f' := by
  obtain ⟨hresult, hvars, hcount⟩ := hf
  obtain ⟨hresult', hvars', hcount'⟩ := hf'
  have hname : f.name = f'.name := congrArg (·.head.name) h
  have htype : f.result = f'.result := typeName_inj hnames hnodup hresult hresult' (congrArg (·.head.type) h)
  have hparams : f.params = f'.params := eq_of_labels hversion hnames hnodup
    (fun v hv => hvars v (List.mem_of_mem_take hv)) (fun v hv => hvars' v (List.mem_of_mem_take hv))
    (congrArg FunctionEntry.params h)
  have hlocals : f.locals = f'.locals := eq_of_labels hversion hnames hnodup
    (fun v hv => hvars v (List.mem_of_mem_drop hv)) (fun v hv => hvars' v (List.mem_of_mem_drop hv))
    (congrArg FunctionEntry.locals h)
  -- the parameters are counted, and come in front of the locals
  have hargs : f.argCount = f'.argCount := by
    have hlength := congrArg List.length hparams
    rwa [Function.params, Function.params, List.length_take_of_le hcount,
      List.length_take_of_le hcount'] at hlength
  have hall : f.vars = f'.vars := by
    rw [← List.take_append_drop f.argCount f.vars, ← List.take_append_drop f'.argCount f'.vars]
    exact congrArg₂ (· ++ ·) hparams hlocals
  cases f
  cases f'
  rw [Function.mk.injEq]
  exact ⟨hname, htype, hargs, hall⟩

end Entries

/-- **A well-formed container is told by its listing.** -/
theorem eq_of_listing {c c' : Container} (hc : c.WellFormed) (hc' : c'.WellFormed) (hordered : c.Ordered)
    (hordered' : c'.Ordered) (h : c.listing = c'.listing) : c = c' := by
  have hversion : c.version = c'.version := congrArg Listing.version h
  have hentries : c.structs.map c.structEntry = c'.structs.map c'.structEntry := congrArg Listing.structs h
  -- the names of structs are shown, so types mean the same in both containers
  have hnames : c.structs.map (·.name) = c'.structs.map (·.name) := by
    have hshown := congrArg (List.map StructEntry.name) hentries
    rwa [List.map_map, List.map_map] at hshown
  have hstructs : c.structs = c'.structs :=
    eq_of_map_eq (fun s hs s' hs' =>
      eq_of_structEntry hversion hnames hc.structNames (hc.members s hs) (hc'.members s' hs')) hentries
  have hfunctions : c.functions = c'.functions :=
    eq_of_map_eq (fun f hf f' hf' =>
      eq_of_functionEntry hversion hnames hc.structNames (hc.functions f hf) (hc'.functions f' hf'))
      (congrArg Listing.functions h)
  have hrows : c.globals.zipIdx.map (fun p => c.globalEntry p.2 p.1) =
      c'.globals.zipIdx.map fun p => c'.globalEntry p.2 p.1 := congrArg Listing.globals h
  have hlabels : c.globals.map c.label = c'.globals.map c'.label := by
    have hshown := congrArg (List.map GlobalEntry.label) hrows
    rw [List.map_map, List.map_map] at hshown
    rw [← List.zipIdx_map_fst 0 c.globals, ← List.zipIdx_map_fst 0 c'.globals, List.map_map, List.map_map]
    exact hshown
  have hglobals : c.globals = c'.globals :=
    eq_of_labels hversion hnames hc.structNames hc.globals hc'.globals hlabels
  have hvalues : (List.range c.globals.length).map c.initialValue? =
      (List.range c.globals.length).map c'.initialValue? := by
    have hshown := congrArg (List.map GlobalEntry.value) hrows
    rw [← hglobals, List.map_map, List.map_map] at hshown
    rw [List.range_eq_range', ← List.zipIdx_map_snd 0 c.globals, List.map_map, List.map_map]
    exact hshown
  have hinitvals : c.initvals = c'.initvals := by
    rw [hordered, hordered', ← hglobals]
    refine List.filterMap_congr fun n hn => ?_
    rw [List.map_inj_left.mp hvalues n hn]
  cases c
  cases c'
  rw [Container.mk.injEq]
  exact ⟨hversion, hstructs, hfunctions, hglobals, hinitvals⟩

end Container

/-! ## The container of an analysis -/

/-- The records that the last pass makes follow the globals. -/
theorem Block.Entered.ordered {b : Block} {c c' : Container} (h : b.Entered c)
    (hglobals : c'.globals = c.globals)
    (hinitvals : c'.initvals = (Item.variables b.items).filterMap VarDecl.initval?) : c'.Ordered := by
  have hlook : ∀ d ∈ Item.variables b.items,
      d.initval? = d.slot.bind fun n => (c'.initialValue? n).map (⟨n, ·⟩) := by
    intro d hd
    obtain ⟨slot, _, hslot, _⟩ := h.globals.entry hd
    rw [hslot, Option.bind_some, Container.initialValue?, hinitvals,
      VarDecl.find?_initval h.slots_nodup hd hslot]
    cases hv : d.initval? with
    | none => rfl
    | some r =>
        have hr : r.global = slot := Option.some.inj ((VarDecl.slot_of_initval? hv).symm.trans hslot)
        rw [← hr]
        rfl
  calc c'.initvals
    _ = (Item.variables b.items).filterMap VarDecl.initval? := hinitvals
    _ = ((Item.variables b.items).map VarDecl.slot).filterMap
          (·.bind fun n => (c'.initialValue? n).map (⟨n, ·⟩)) := by
      rw [List.filterMap_map]
      exact List.filterMap_congr hlook
    _ = (List.range c'.globals.length).filterMap fun n => (c'.initialValue? n).map (⟨n, ·⟩) := by
      rw [h.globals.positions, List.filterMap_map, hglobals]
      rfl

section Analysed

variable {source : String} {version : Nat} {b b' : Block} {s : Session} (hparse : Block.parse source = .ok b)
  (h : b.analyse (.ofContainer (.empty version)) = ⟨b', s, .ok ()⟩)

include hparse h

theorem Block.wellFormed_of_analyse : s.container.WellFormed := by
  have hends := Block.analyse_ends hparse (.ofContainer (.empty version))
  rw [h] at hends
  exact (hends.ok () rfl).reaches.wellFormed (Container.wellFormed_empty version)

theorem Block.ordered_of_analyse : s.container.Ordered := by
  obtain ⟨b₁, s₁, b₂, s₂, k, e₁, e₂, e₃, htypes, hdecls, hcheck, rfl⟩ := Block.analyse_eq_ok h
  have hentered := Block.entered_of_parse hparse htypes hdecls
  have hpasses := (Block.checks_check b₂ (.ofSession (s₂.note e₂))).passes
  have htable := (Block.check_isOk (s := s₂.note e₂) fun i hi => hentered.ready hi).2 (by rw [hcheck]; rfl)
  have hnone : s₂.container.initvals = [] := (Block.fresh_of_parse hparse).initvals_eq htypes hdecls
  rw [hcheck, show (s₂.note e₂).container = s₂.container from rfl, hnone, List.nil_append] at htable
  have hglobals := hpasses.tables.globals
  rw [← Block.checkProgram, hcheck] at hglobals
  exact hentered.ordered hglobals htable

/-- What analysis leaves can be read from its dump: all names come from the script, where they are words. -/
theorem Block.readable_of_analyse : s.container.listing.Readable := by
  have hb := ((Block.from_script source).1 b hparse).parts
  have hends := Block.ends_analyse (s := .ofContainer (.empty version)) hb (Container.named_empty version)
  rw [h] at hends
  refine Container.readable_listing (fun name hname => ?_) (Block.wellFormed_of_analyse hparse h)
    (hends.ok () rfl)
  obtain ⟨c, cs, hc, hcs, htext⟩ := Spelling.mem_name.mp hname.pattern
  rw [htext]
  exact List.forall_mem_cons.mpr ⟨isWordPart_of_isWordStart hc, hcs⟩

end Analysed

/--
**The dump loses nothing.** Let two programs be analysed with success, each on a new container. If the dumps
of the two containers are the same text, the containers are equal.
-/
theorem Block.dump_tells {source₁ source₂ : String} {version₁ version₂ : Nat} {b₁ b₂ b₁' b₂' : Block}
    {s₁ s₂ : Session} (hparse₁ : Block.parse source₁ = .ok b₁) (hparse₂ : Block.parse source₂ = .ok b₂)
    (h₁ : b₁.analyse (.ofContainer (.empty version₁)) = ⟨b₁', s₁, .ok ()⟩)
    (h₂ : b₂.analyse (.ofContainer (.empty version₂)) = ⟨b₂', s₂, .ok ()⟩)
    (hdump : s₁.container.dump = s₂.container.dump) : s₁.container = s₂.container := by
  have htext : s₁.container.listing.text = s₂.container.listing.text := by
    rw [← Container.toList_dump, hdump, Container.toList_dump]
  have hlisting : s₁.container.listing = s₂.container.listing :=
    Listing.text_inj (Block.readable_of_analyse hparse₁ h₁) (Block.readable_of_analyse hparse₂ h₂) htext
  exact Container.eq_of_listing (Block.wellFormed_of_analyse hparse₁ h₁)
    (Block.wellFormed_of_analyse hparse₂ h₂) (Block.ordered_of_analyse hparse₁ h₁)
    (Block.ordered_of_analyse hparse₂ h₂) hlisting

/-- A struct that holds itself, two initial values, and a function with a parameter and a local. -/
def spread : String :=
  "struct P \x7b P n; \x7d; int g = 2 + 3; string t = \"a\\n\"; P f(int a) \x7b string b; \x7d"

/-- The same tables from another script: a folded sum, and a local of an inner block. -/
def packed : String :=
  "struct P\x7bP n;\x7d;P f(int a)\x7b\x7bstring b;\x7d\x7dint g=5;string t=\"a\\n\";"

/-- The dump of both. -/
def packedDump : String :=
  "; ain version 12
struct 0 P \x7b struct P n; \x7d
function 0 struct P f(int a) locals: [1] string b
global 0 int g = 5
global 1 string t = \"a\\n\"
"

set_option maxRecDepth 100000 in
theorem Block.dump_tells_packed :
    ∃ b₁ b₂ b₁' b₂' s₁ s₂, Block.parse spread = .ok b₁ ∧ Block.parse packed = .ok b₂ ∧
      b₁.analyse (.ofContainer (.empty 12)) = ⟨b₁', s₁, .ok ()⟩ ∧
      b₂.analyse (.ofContainer (.empty 12)) = ⟨b₂', s₂, .ok ()⟩ ∧
      s₁.container.dump = s₂.container.dump ∧ s₁.container = s₂.container := by
  obtain ⟨b₁, hparse₁, hrun⟩ := Block.exists_of_chars spread (fun b =>
      let r := b.analyse (.ofContainer (.empty 12))
      r.result.isOk && r.state.container.dump = packedDump) rfl (by decide +kernel)
  obtain ⟨hok₁, hdump₁⟩ := Bool.and_eq_true_iff.mp hrun
  obtain ⟨b₂, hparse₂, hrun⟩ := Block.exists_of_chars packed (fun b =>
      let r := b.analyse (.ofContainer (.empty 12))
      r.result.isOk && r.state.container.dump = packedDump) rfl (by decide +kernel)
  obtain ⟨hok₂, hdump₂⟩ := Bool.and_eq_true_iff.mp hrun
  have h₁ := Step.eq_of_isOk hok₁
  have h₂ := Step.eq_of_isOk hok₂
  have hdump := (of_decide_eq_true hdump₁).trans (of_decide_eq_true hdump₂).symm
  exact ⟨b₁, b₂, _, _, _, _, hparse₁, hparse₂, h₁, h₂, hdump, Block.dump_tells hparse₁ hparse₂ h₁ h₂ hdump⟩

end Jaf
