import Jaf.Proofs.Analysis.TableContents

/-!
# The order of declarations does not matter

Every name of a program can be used before the declaration that gives it, so one would expect that the
declarations at the top level can stand in any order. This module shows it: a program is accepted in all
orders or in none, and the tables hold the same in all of them (`Block.Fresh.analyse_perm`).

Three facts come together. Whether the first two passes succeed is said without any order
(`Block.Consistent`). The tables that they leave are the same up to order and numbers
(`Container.Holds.reordered`). And a check depends on the tables only through names, so an item that is
accepted by the tables of one order is accepted by those of the other (`Item.Becomes.accepted`).
-/

namespace Jaf

/-! ## Acceptance by other tables -/

section Accepted

variable {c c' : Container}

/-- Outside of functions a name means a global. -/
theorem Container.Translates.lookup {ρ : Nat → Nat} (h : c.Translates ρ c') :
    c.lookup.Translates ρ c'.lookup := by
  refine h.ofScopes ?_
  intro name ref v hfind
  obtain ⟨n, hn, hfind⟩ := Option.bind_eq_some_iff.mp hfind
  obtain ⟨g, hg, hfind⟩ := Option.bind_eq_some_iff.mp hfind
  cases hfind
  obtain ⟨n', hn', hg'⟩ := h.globals hn hg
  refine ⟨.global n', ?_⟩
  show (c'.globalNo? name >>= fun n => _) = _
  simp [hn', hg']

theorem Container.Reordered.structNo?_eq (h : c.Reordered c') (name : String) :
    c'.structNo? name = (c.structNo? name).map (c.renumbering c') := by
  refine Container.structNo?_renumbering ?_ name
  have hnames := h.structs.map (·.name)
  rw [List.map_map] at hnames
  exact hnames

/-- What has become of a variable has the same type in both containers, but for the number. -/
theorem VarDecl.Becomes.valueType? (h : c.Reordered c') {d d₁ d₂ : VarDecl} (h₁ : d.Becomes c d₁)
    (h₂ : d.Becomes c' d₂) (hname : d.name.isSome = true) {t : ValueType}
    (ht : d₁.valueType? = some t) : d₂.valueType? = some (t.renumber (c.renumbering c')) := by
  obtain ⟨code, hcode, hencode⟩ := (h₁.type hname).encode
  obtain ⟨code', hcode', hencode'⟩ := (h₂.type hname).encode
  rw [TypeSpec.code?_renumber h.structNo?_eq, hcode] at hcode'
  cases hcode'
  rw [VarDecl.valueType?, hencode] at ht
  cases ht
  rw [VarDecl.valueType?, hencode', ← TypeCode.valueType_renumber]

variable (h : c.Reordered c') (hc : c.WellFormed) (hc' : c'.WellFormed)

include h hc hc'

/-- An initializer that is accepted by one container is accepted by the other. -/
theorem VarDecl.Becomes.starts {d d₁ d₂ : VarDecl} (h₁ : d.Becomes c d₁) (h₂ : d.Becomes c' d₂)
    (hname : d.name.isSome = true) (hstarts : d₁.Starts c) : d₂.Starts c' := by
  intro e he
  rw [h₂.init, ← h₁.init] at he
  obtain ⟨t, v, ht, htype, hv⟩ := hstarts e he
  exact ⟨_, v, h₁.valueType? h h₂ hname ht, htype.renumber (h.translates hc hc').lookup, hv⟩

/-- **What is accepted by the tables of one order is accepted by those of another.** -/
theorem Item.Becomes.accepted {i i₁ i₂ : Item} (h₁ : i.Becomes c i₁) (h₂ : i.Becomes c' i₂)
    (hready₁ : i₁.Ready c) (hready₂ : i₂.Ready c') (haccepted : i₁.Accepted c) : i₂.Accepted c' := by
  cases h₁ with
  | var hd₁ =>
      cases h₂ with
      | var hd₂ =>
          intro hname
          have hname₁ := hd₁.name.symm ▸ hd₂.name ▸ hname
          exact hd₁.starts h hc hc' hd₂ (hd₂.name ▸ hname) (haccepted hname₁)
  | @func head head₁ body body₁ hf₁ =>
      cases h₂ with
      | @func _ head₂ _ body₂ hf₂ =>
          obtain ⟨n₁, f, hn₁, hentry₁, hdesc, hno₁⟩ := hready₁
          obtain ⟨n₂, f₂, hn₂, hentry₂, _, hno₂⟩ := hready₂
          obtain ⟨k, hpass⟩ := haccepted
          have htranslates := h.translates hc hc'
          -- the function has the same name on both sides
          obtain ⟨m, hm, hentry⟩ := htranslates.functions hno₁ hentry₁
          rw [hf₁.name, ← hf₂.name, hno₂] at hm
          cases hm
          have hbody : body₂.parts.map Part.bare = body₁.parts.map Part.bare := by
            rw [hf₁.body, hf₂.body]
          have htables : (Checker.ofSession (.ofContainer c)).container.Translates (c.renumbering c')
              (Checker.ofSession (.ofContainer c')).container := htranslates
          obtain ⟨_, k', hk', _⟩ := Item.passAll_function htables rfl rfl hn₁ hn₂ hentry₁ hentry hbody
            (Block.isHead_parts hdesc.flat) hpass
          exact ⟨k', hk'⟩

end Accepted

/-! ## Two orders of a program -/

/-- What is known of a program and the tables after the first two passes. -/
structure Block.Prepared (version : Nat) (b b₂ : Block) (c : Container) : Prop where
  holds : c.Holds b
  version : c.version = version
  becomes : List.Forall₂ (Item.Becomes c) b.items b₂.items
  entered : b₂.Entered c
  initvals : c.initvals = []

theorem Block.Fresh.prepared {version : Nat} {b b₁ b₂ : Block} {s₁ s₂ : Session} {e : LogEvent}
    (hb : b.Fresh) (htypes : b.bindTypes (.ofContainer (.empty version)) = ⟨b₁, s₁, .ok ()⟩)
    (hdecls : b₁.allot (s₁.note e) = ⟨b₂, s₂, .ok ()⟩) :
    b.Prepared version b₂ s₂.container := by
  obtain ⟨hholds, hversion⟩ := hb.holds htypes hdecls
  exact ⟨hholds, hversion, (hb.becomes htypes hdecls).1, hb.isScript.entered htypes hdecls,
    hb.initvals_eq htypes hdecls⟩

/-- What a global starts with, under its name. -/
def VarDecl.start? (d : VarDecl) : Option (Option String × Value) :=
  (d.init.bind Expr.constant?).map fun v => (d.name, v)

namespace Block.Prepared

variable {version : Nat} {b b' b₂ b₂' : Block} {c c' : Container}

theorem reordered (h : b.Prepared version b₂ c) (h' : b'.Prepared version b₂' c')
    (hperm : b'.items.Perm b.items) : c.Reordered c' :=
  h.holds.reordered h'.holds hperm (h'.version.trans h.version.symm)

/-- If all items are accepted in one order, then they are in the other. -/
theorem accepted (h : b.Prepared version b₂ c) (h' : b'.Prepared version b₂' c')
    (hperm : b'.items.Perm b.items) (haccepted : ∀ i ∈ b₂.items, i.Accepted c) :
    ∀ i ∈ b₂'.items, i.Accepted c' := by
  intro i₂ hi₂
  obtain ⟨i, hi, hbecomes'⟩ := exists_of_forall₂ h'.becomes hi₂
  obtain ⟨i₁, hi₁, hbecomes⟩ := exists_of_forall₂ h.becomes.flip (hperm.mem_iff.mp hi)
  exact hbecomes.accepted (h.reordered h' hperm) h.holds.wellFormed h'.holds.wellFormed hbecomes'
    (h.entered.ready hi₁) (h'.entered.ready hi₂) (haccepted i₁ hi₁)

/-- The initial values are those of the globals of the text. -/
theorem initvals_spelling (h : b.Prepared version b₂ c) :
    ((Item.variables b₂.items).filterMap VarDecl.initval?).map (Initval.spelling c.globals) =
      (Item.variables b.items).filterMap VarDecl.start? := by
  have hstarts : (Item.variables b.items).map VarDecl.start? =
      (Item.variables b₂.items).map VarDecl.start? := by
    refine map_eq_of_forall₂ ?_ (Item.Becomes.variables h.becomes)
    intro d d₂ hd
    rw [VarDecl.start?, VarDecl.start?, hd.name, hd.init]
  have hflatten : ∀ ds : List VarDecl,
      ds.filterMap VarDecl.start? = (ds.map VarDecl.start?).filterMap id := by
    intro ds
    rw [List.filterMap_map]
    rfl
  rw [hflatten, hstarts, ← hflatten, List.map_filterMap]
  refine List.filterMap_congr fun d hd => ?_
  -- the slot of a global leads to its name
  obtain ⟨slot, v, hslot, hv, hname, _⟩ := h.entered.globals.entry hd
  unfold VarDecl.initval? VarDecl.start?
  rw [hslot, hname]
  cases d.init with
  | none => rfl
  | some e =>
      cases hconstant : e.constant? with
      | none => simp [hconstant]
      | some value => simp [hconstant, Initval.spelling, hv]

end Block.Prepared

/-! ## Analyses of two orders -/

section Analyses

variable {version : Nat} {b b' : Block}

/-- What is known of a program that is accepted, and of its tables. -/
theorem Block.Fresh.analysed (hb : b.Fresh)
    (h : (b.analyse (.ofContainer (.empty version))).result.isOk = true) :
    ∃ b₂ c, b.Consistent ∧ b.Prepared version b₂ c ∧ (∀ i ∈ b₂.items, i.Accepted c) ∧
      c.SameTables (b.analyse (.ofContainer (.empty version))).state.container ∧
      (b.analyse (.ofContainer (.empty version))).state.container.initvals =
        (Item.variables b₂.items).filterMap VarDecl.initval? := by
  have hrun := Step.eq_of_isOk h
  obtain ⟨b₁, s₁, b₂, s₂, k, e₁, e₂, e₃, htypes, hdecls, hcheck, hstate⟩ := Block.analyse_eq_ok hrun
  have hprepared := hb.prepared htypes hdecls
  have hready : ∀ i ∈ b₂.items, i.Ready (s₂.note e₂).container :=
    fun i hi => hprepared.entered.ready hi
  obtain ⟨hok, hinitvals⟩ := Block.check_isOk hready
  have hpasses := (Block.checks_check b₂ (.ofSession (s₂.note e₂))).passes
  rw [show b₂.check (.ofSession (s₂.note e₂)) = _ from hcheck] at hpasses
  rw [hcheck] at hok hinitvals
  rw [hstate]
  refine ⟨b₂, s₂.container, hb.consistent htypes hdecls, hprepared, hok.mp rfl, hpasses.tables, ?_⟩
  refine (hinitvals rfl).trans ?_
  rw [show (s₂.note e₂).container.initvals = [] from hprepared.initvals, List.nil_append]

/-- A program is accepted if its declarations are consistent and all its items are accepted. -/
theorem Block.Fresh.analyse_isOk (hb : b.Fresh) (hconsistent : b.Consistent)
    (haccepted : ∀ b₂ c, b.Prepared version b₂ c → ∀ i ∈ b₂.items, i.Accepted c) :
    (b.analyse (.ofContainer (.empty version))).result.isOk = true := by
  obtain ⟨b₁, s₁, htypes, hallot⟩ := hb.prepares hconsistent version
  obtain ⟨b₂, s₂, hdecls⟩ := hallot (.typesDone s₁.container.structs.length)
  have hprepared := hb.prepared htypes hdecls
  have hready : ∀ i ∈ b₂.items, i.Ready (s₂.note (.declarationsDone s₂.container.functions.length
      s₂.container.globals.length)).container := fun i hi => hprepared.entered.ready hi
  have hok := (Block.check_isOk hready).1.mpr (haccepted b₂ _ hprepared)
  obtain ⟨b₃, k, hcheck⟩ : ∃ b₃ k, b₂.checkProgram (s₂.note (.declarationsDone
      s₂.container.functions.length s₂.container.globals.length)) = ⟨b₃, k, .ok ()⟩ :=
    ⟨_, _, Step.eq_of_isOk hok⟩
  simp only [Block.analyse, htypes, Step.andThen, hdecls, hcheck]
  rfl

/-- **A program that is accepted is accepted in every order**, with the same tables but for the order. -/
theorem Block.Fresh.analyse_perm (hb : b.Fresh) (hperm : b'.items.Perm b.items)
    (h : (b.analyse (.ofContainer (.empty version))).result.isOk = true) :
    (b'.analyse (.ofContainer (.empty version))).result.isOk = true ∧
      Container.SameByName (b.analyse (.ofContainer (.empty version))).state.container
        (b'.analyse (.ofContainer (.empty version))).state.container := by
  have hb' := hb.perm hperm
  obtain ⟨b₂, c, hconsistent, hprepared, haccepted, htables, hinitvals⟩ := hb.analysed h
  have h' : (b'.analyse (.ofContainer (.empty version))).result.isOk = true :=
    hb'.analyse_isOk (hconsistent.perm hperm) fun b₂' c' hprepared' =>
      hprepared.accepted hprepared' hperm haccepted
  obtain ⟨b₂', c', _, hprepared', _, htables', hinitvals'⟩ := hb'.analysed h'
  refine ⟨h', ?_⟩
  have hreordered := hprepared.reordered hprepared' hperm
  have hvalues : (((Item.variables b₂.items).filterMap VarDecl.initval?).map
      (Initval.spelling c.globals)).Perm
      (((Item.variables b₂'.items).filterMap VarDecl.initval?).map (Initval.spelling c'.globals)) := by
    rw [hprepared.initvals_spelling, hprepared'.initvals_spelling]
    exact ((hperm.filterMap _).filterMap _).symm
  have hsame := hreordered.spellings hprepared.holds.wellFormed hprepared'.holds.wellFormed
  refine ⟨?_, ?_, ?_, ?_⟩
  · rw [htables.structs, htables'.structs]
    exact hsame.1
  · rw [htables.structs, htables'.structs, htables.functions, htables'.functions]
    exact hsame.2.1
  · rw [htables.structs, htables'.structs, htables.globals, htables'.globals]
    exact hsame.2.2
  · rw [htables.globals, htables'.globals, hinitvals, hinitvals']
    exact hvalues

end Analyses

/--
**The order of declarations does not matter.** A parsed program is accepted if and only if the same items
are in any other order. If so, then the structs, functions, globals and initial values are the same in
both, up to their order, if structs and globals are given by their names.
-/
theorem Block.analyse_order_free {source : String} {b b' : Block} (hparse : Block.parse source = .ok b)
    (hperm : b'.items.Perm b.items) (version : Nat) :
    ((b.analyse (.ofContainer (.empty version))).result.isOk = true ↔
      (b'.analyse (.ofContainer (.empty version))).result.isOk = true) ∧
    ((b.analyse (.ofContainer (.empty version))).result.isOk = true →
      Container.SameByName (b.analyse (.ofContainer (.empty version))).state.container
        (b'.analyse (.ofContainer (.empty version))).state.container) := by
  have hb := Block.fresh_of_parse hparse
  have hb' := hb.perm hperm
  refine ⟨⟨fun h => (hb.analyse_perm hperm h).1, fun h => ?_⟩, fun h => (hb.analyse_perm hperm h).2⟩
  exact (hb'.analyse_perm hperm.symm h).1

/-- A program that uses everything after its declaration, and before it when it is read backwards. -/
def reversible : String :=
  "struct A\x7bstruct B b;\x7d;struct B\x7bint x;\x7d;A a;int n=2;int f()\x7breturn a.b.x+n;\x7d"

set_option maxRecDepth 100000 in
theorem Block.analyse_order_free_reversible :
    ∃ b b' : Block, Block.parse reversible = .ok b ∧ b'.items.Perm b.items ∧
      (b.analyse (.ofContainer (.empty 12))).state.container.structs.map (·.name) = ["A", "B"] ∧
      (b'.analyse (.ofContainer (.empty 12))).state.container.structs.map (·.name) = ["B", "A"] ∧
      (b.analyse (.ofContainer (.empty 12))).result.isOk = true ∧
      (b'.analyse (.ofContainer (.empty 12))).result.isOk = true ∧
      Container.SameByName (b.analyse (.ofContainer (.empty 12))).state.container
        (b'.analyse (.ofContainer (.empty 12))).state.container := by
  obtain ⟨b, hparse, hrun⟩ := Block.exists_of_chars reversible (fun b =>
      let r := b.analyse (.ofContainer (.empty 12))
      let r' := Block.analyse { b with items := b.items.reverse } (.ofContainer (.empty 12))
      r.result.isOk && (r.state.container.structs.map (·.name) = ["A", "B"] &&
        r'.state.container.structs.map (·.name) = ["B", "A"])) rfl (by decide +kernel)
  obtain ⟨hok, hrest⟩ := Bool.and_eq_true_iff.mp hrun
  obtain ⟨hnames, hnames'⟩ := Bool.and_eq_true_iff.mp hrest
  have hperm : b.items.reverse.Perm b.items := List.reverse_perm b.items
  have hfree := Block.analyse_order_free hparse
    (show (Block.mk b.items.reverse b.span).items.Perm b.items from hperm) 12
  exact ⟨b, _, hparse, hperm, of_decide_eq_true hnames, of_decide_eq_true hnames', hok,
    hfree.1.mp hok, hfree.2 hok⟩

end Jaf
