import Jaf.Proofs.Analysis.BlamedPlaces
import Jaf.Proofs.Analysis.CheckErrors
import Jaf.Proofs.Lexer.Tiling
import Jaf.Proofs.Output.ProgressReports
import Jaf.Proofs.Parser.ScriptProvenance

/-!
# What analysis takes from a program

Settling types and handing out numbers make up neither places nor names, as little as parsing does. They go
from a tree out of a stock to a tree out of the same stock, fail at a place in it, and enter names of the
stock into the tables. With what a check blames, this says of a whole analysis what it takes from a program
(`Block.ends_analyse`).

The stock of a script has the places whose ends are ends of its lexemes, and the texts of name tokens. That
is what the main theorem reads off: wherever a compilation fails, it points into the script, at ends of
characters.
-/

namespace Jaf

variable {m : Stock}

/-! ## Names in the tables -/

/-- All names in the tables are in the stock. -/
structure Container.Named (m : Stock) (c : Container) : Prop where
  structs : ∀ s ∈ c.structs, m.name s.name ∧ ∀ v ∈ s.members, m.name v.name
  functions : ∀ f ∈ c.functions, m.name f.name ∧ ∀ v ∈ f.vars, m.name v.name
  globals : ∀ v ∈ c.globals, m.name v.name

theorem Container.named_empty (version : Nat) : (Container.empty version).Named m :=
  ⟨fun _ h => absurd h List.not_mem_nil, fun _ h => absurd h List.not_mem_nil,
    fun _ h => absurd h List.not_mem_nil⟩

namespace Container.Named

variable {c : Container}

theorem addStruct (h : c.Named m) {name : String} (hname : m.name name) : (c.addStruct name).Named m :=
  ⟨List.forall_mem_append.mpr ⟨h.structs, List.forall_mem_singleton.mpr
    ⟨hname, fun _ hv => absurd hv List.not_mem_nil⟩⟩, h.functions, h.globals⟩

theorem setMembers (h : c.Named m) (n : Nat) {members : List Variable}
    (hmembers : ∀ v ∈ members, m.name v.name) : (c.setMembers n members).Named m := by
  refine ⟨fun s hs => ?_, h.functions, h.globals⟩
  obtain ⟨i, hi⟩ := List.mem_iff_getElem?.mp hs
  rw [Container.setMembers, List.getElem?_modify, Option.map_eq_map, Option.map_eq_some_iff] at hi
  obtain ⟨s', hs', rfl⟩ := hi
  have hold := h.structs s' (List.mem_of_getElem? hs')
  split
  · exact ⟨hold.1, hmembers⟩
  · exact hold

theorem addFunction (h : c.Named m) {f : Function} (hname : m.name f.name)
    (hvars : ∀ v ∈ f.vars, m.name v.name) : (c.addFunction f).Named m :=
  ⟨h.structs, List.forall_mem_append.mpr ⟨h.functions, List.forall_mem_singleton.mpr ⟨hname, hvars⟩⟩,
    h.globals⟩

theorem addGlobal (h : c.Named m) {name : String} (hname : m.name name) (type : TypeCode) :
    (c.addGlobal name type).Named m :=
  ⟨h.structs, h.functions, List.forall_mem_append.mpr ⟨h.globals, List.forall_mem_singleton.mpr hname⟩⟩

end Container.Named

/-- How a step of settling types and of numbering ends: a good tree and good tables, or a good place. -/
abbrev Session.Ends {τ α : Type} (m : Stock) (Q : τ → Prop) (r : Step Session τ α) : Prop :=
  r.Ends (fun t _ s => Q t ∧ s.container.Named m) m.Blames

/-! ## Settling types -/

namespace TypeSpec

theorem span_of_encode {t : TypeSpec} {e : SemanticError} (h : t.encode = .error e) : e.span = t.span := by
  unfold encode at h
  split at h <;> cases h <;> rfl

/-- Another number changes nothing that comes out of the stock. -/
theorem From.renumber {kind kind' : TypeKind} {tag : Option String} {number number' : Option Nat}
    {members : Option (List VarDecl)} {p : Span} (h : TypeSpec.From m ⟨kind, tag, number, members, p⟩) :
    TypeSpec.From m ⟨kind', tag, number', members, p⟩ :=
  .mk h.span h.name h.members

/-- Other members may take the place of those in a body. -/
theorem From.withMembers {t : TypeSpec} (h : t.From m) {ds : List VarDecl} (hds : ∀ d ∈ ds, d.From m) :
    TypeSpec.From m { t with members := some ds } :=
  .mk h.span h.name (by rintro _ ⟨⟩; exact hds)

mutual

theorem ends_register : ∀ (t : TypeSpec) (s : Session), t.From m → s.container.Named m →
    Session.Ends m (·.From m) (t.register s)
  | ⟨kind, name, number, members, span⟩, s, ht, hs => by
    unfold register
    cases name with
    | none => exact .fail ht.span
    | some text =>
        have hadd : (s.addStruct text).container.Named m := hs.addStruct (ht.name text rfl)
        dsimp only
        split
        · exact .fail ht.span
        · cases members with
          | none => exact .done ⟨ht.renumber, hadd⟩
          | some ds =>
              refine (ends_registerMembers ds _ (ht.members ds rfl) hadd).andThen fun ds' _ s' h => ?_
              exact .done ⟨ht.renumber.withMembers h.1, h.2⟩

theorem ends_registerMembers : ∀ (ds : List VarDecl) (s : Session), (∀ d ∈ ds, d.From m) →
    s.container.Named m → Session.Ends m (fun ds => ∀ d ∈ ds, d.From m) (registerMembers ds s)
  | [], s, hds, hs => by
    unfold registerMembers
    exact .done ⟨hds, hs⟩
  | ⟨name, type, init, slot, span⟩ :: ds, s, hds, hs => by
    obtain ⟨hd, hds⟩ := List.forall_mem_cons.mp hds
    -- the declarations after the first are the same in both cases
    have hrest : ∀ (type' : TypeSpec) (s' : Session), type'.From m → s'.container.Named m →
        Session.Ends m (fun ds => ∀ d ∈ ds, d.From m)
          ((registerMembers ds s').map (⟨name, type', init, slot, span⟩ :: ·)) := by
      intro type' s' ht' hs'
      refine .map ((ends_registerMembers ds s' hds hs').mono (fun ds' _ s'' h => ?_) fun _ _ he => he)
      exact ⟨List.forall_mem_cons.mpr ⟨⟨⟨hd.span, hd.name, hd.init⟩, ht'⟩, h.1⟩, h.2⟩
    unfold registerMembers
    split
    · exact (ends_register type s hd.type hs).andThen fun type' _ s' h => hrest type' s' h.1 h.2
    · exact hrest type s hd.type hs

end

theorem ends_registerNew {t : TypeSpec} {s : Session} (ht : t.From m) (hs : s.container.Named m) :
    Session.Ends m (·.From m) (t.registerNew s) := by
  unfold registerNew
  split
  · exact (ends_register t s ht hs).andThen fun t' _ s' h => .done h
  · exact .done ⟨ht, hs⟩

theorem ends_number {t : TypeSpec} {s : Session} (ht : t.From m) (hs : s.container.Named m) :
    Session.Ends m (·.From m) (t.number s) := by
  unfold number
  split
  · exact .done ⟨ht, hs⟩
  · exact ends_register t s ht hs

theorem ends_bindName {t : TypeSpec} {s : Session} (ht : t.From m) (hs : s.container.Named m) :
    Session.Ends m (·.From m) (t.bindName s) := by
  unfold bindName
  dsimp only
  split
  · exact .done ⟨.mk ht.span ht.name ht.members, hs⟩
  · exact .fail ht.span

/-- The record of a member has the name of the member. -/
theorem named_memberRecord {c : Container} {d : VarDecl} (hd : d.From m) :
    (∀ vs, memberRecord c d = .ok vs → ∀ v ∈ vs, m.name v.name) ∧
      ∀ e, memberRecord c d = .error e → m.span e.span := by
  unfold memberRecord
  cases hname : d.name with
  | none =>
      refine ⟨fun vs hvs => ?_, fun e he => (nomatch he)⟩
      cases hvs
      exact fun _ hv => absurd hv List.not_mem_nil
  | some name =>
      cases htype : d.type.encode with
      | ok t =>
          refine ⟨fun vs hvs => ?_, fun e he => (nomatch he)⟩
          cases hvs
          exact List.forall_mem_singleton.mpr (hd.name name hname)
      | error e' =>
          refine ⟨fun vs hvs => (nomatch hvs), fun e he => ?_⟩
          cases he
          exact span_of_encode htype ▸ hd.type.span

theorem ends_bindMembers {bind : TypeSpec → Session → Step Session TypeSpec Unit}
    (hbind : ∀ t s, t.From m → s.container.Named m → Session.Ends m (·.From m) (bind t s)) :
    ∀ (ds : List VarDecl) (s : Session), (∀ d ∈ ds, d.From m) → s.container.Named m →
      (bindMembers bind ds s).Ends (fun ds vs s => (∀ d ∈ ds, d.From m) ∧ (∀ v ∈ vs, m.name v.name) ∧
        s.container.Named m) m.Blames := by
  intro ds
  induction ds with
  | nil => exact fun s hds hs => .done ⟨hds, fun _ hv => absurd hv List.not_mem_nil, hs⟩
  | cons d ds ih =>
      intro s hds hs
      obtain ⟨hd, hds⟩ := List.forall_mem_cons.mp hds
      rw [bindMembers]
      split
      · refine .map ((ih s hds hs).mono (fun ds' vs s' h => ?_) fun _ _ he => he)
        exact ⟨List.forall_mem_cons.mpr ⟨hd, h.1⟩, h.2⟩
      · refine (hbind d.type s hd.type hs).andThen fun t _ s' ht => ?_
        have hd' : VarDecl.From m { d with type := t } := ⟨⟨hd.span, hd.name, hd.init⟩, ht.1⟩
        have hrecord := named_memberRecord (c := s'.container) hd'
        dsimp only
        split
        next e he => exact .failed (hrecord.2 e he)
        next records hrecords =>
          refine (ih s' hds ht.2).andThen fun ds' vs s'' h => .done ?_
          exact ⟨List.forall_mem_cons.mpr ⟨hd', h.1⟩,
            List.forall_mem_append.mpr ⟨hrecord.1 records hrecords, h.2.1⟩, h.2.2⟩

theorem ends_bindWithin : ∀ (n : Nat) (t : TypeSpec) (s : Session), t.From m → s.container.Named m →
    Session.Ends m (·.From m) (bindWithin n t s) := by
  intro n
  induction n with
  | zero =>
      intro t s ht hs
      unfold bindWithin
      cases t.kind with
      | typedef => exact ends_bindName ht hs
      | enum => exact .fail ht.span
      | _ => exact .done ⟨ht, hs⟩
  | succ n ih =>
      intro t s ht hs
      unfold bindWithin
      cases t.kind with
      | typedef => exact ends_bindName ht hs
      | enum => exact .fail ht.span
      | struct =>
          dsimp only
          split
          · refine (ends_number ht hs).andThen fun t' no s' h => ?_
            have hmembers : ∀ d ∈ t'.members.getD [], d.From m := by
              cases hds : t'.members with
              | none => exact fun _ hd => absurd hd List.not_mem_nil
              | some ds => exact h.1.members ds hds
            refine (ends_bindMembers ih _ s' hmembers h.2).andThen fun ds' records s'' h' => .done ?_
            exact ⟨h.1.withMembers h'.1, h'.2.2.setMembers no h'.2.1⟩
          · exact .done ⟨ht, hs⟩
      | _ => exact .done ⟨ht, hs⟩

theorem ends_bind {t : TypeSpec} {s : Session} (ht : t.From m) (hs : s.container.Named m) :
    Session.Ends m (·.From m) (t.bind s) :=
  ends_bindWithin t.height t s ht hs

end TypeSpec

section Walk

variable {f : TypeSpec → Session → Step Session TypeSpec Unit}

theorem VarDecl.ends_updateTypes
    (hf : ∀ t s, t.From m → s.container.Named m → Session.Ends m (·.From m) (f t s)) :
    ∀ (ds : List VarDecl) (s : Session), (∀ d ∈ ds, d.From m) → s.container.Named m →
      Session.Ends m (fun ds => ∀ d ∈ ds, d.From m) (VarDecl.updateTypes f ds s) := by
  intro ds
  induction ds with
  | nil => exact fun s hds hs => .done ⟨hds, hs⟩
  | cons d ds ih =>
      intro s hds hs
      obtain ⟨hd, hds⟩ := List.forall_mem_cons.mp hds
      rw [VarDecl.updateTypes]
      refine (hf d.type s hd.type hs).andThen fun t _ s' ht => .map ?_
      refine (ih s' hds ht.2).mono (fun ds' _ s'' h => ?_) fun _ _ he => he
      exact ⟨List.forall_mem_cons.mpr ⟨⟨⟨hd.span, hd.name, hd.init⟩, ht.1⟩, h.1⟩, h.2⟩

theorem Part.ends_updateTypes
    (hf : ∀ t s, t.From m → s.container.Named m → Session.Ends m (·.From m) (f t s)) (p : Part)
    (s : Session) (hp : p.From m) (hs : s.container.Named m) :
    Session.Ends m (·.From m) (p.updateTypes f s) := by
  cases p with
  | var d =>
      have hd : d.From m := hp
      rw [Part.updateTypes]
      split
      · exact .done ⟨hp, hs⟩
      · refine .map ((hf d.type s hd.type hs).mono (fun t _ s' h => ?_) fun _ _ he => he)
        exact ⟨⟨⟨hd.span, hd.name, hd.init⟩, h.1⟩, h.2⟩
  | head h =>
      have hh : h.From m := hp
      unfold Part.updateTypes FuncHead.updateTypes
      refine .map ((hf h.result s hh.result hs).andThen fun t _ s' ht => .map ?_)
      refine (VarDecl.ends_updateTypes hf h.params s' hh.params ht.2).mono (fun ds _ s'' hds => ?_)
        fun _ _ he => he
      exact ⟨⟨hh.span, hh.name, ht.1, hds.1⟩, hds.2⟩
  | _ => exact .done ⟨hp, hs⟩

theorem Block.ends_updateTypes
    (hf : ∀ t s, t.From m → s.container.Named m → Session.Ends m (·.From m) (f t s)) {b : Block}
    {s : Session} (hb : ∀ p ∈ b.parts, p.From m) (hs : s.container.Named m) :
    Session.Ends m (fun b => ∀ p ∈ b.parts, p.From m) (b.updateTypes f s) := by
  have hrun := Step.Ends.each (Part.ends_updateTypes hf) b.parts s hb hs
  rw [← Block.parts_updateTypes] at hrun
  exact hrun.of_map

end Walk

theorem Block.ends_bindTypes {b : Block} {s : Session} (hb : ∀ p ∈ b.parts, p.From m)
    (hs : s.container.Named m) :
    Session.Ends m (fun b => ∀ p ∈ b.parts, p.From m) (b.bindTypes s) := by
  unfold Block.bindTypes
  refine (Block.ends_updateTypes (fun t s => TypeSpec.ends_registerNew) hb hs).andThen fun b' _ s' h => ?_
  exact Block.ends_updateTypes (fun t s => TypeSpec.ends_bind) h.1 h.2

/-! ## Numbering -/

theorem VarDecl.ends_allot {c : Container} {d : VarDecl} {vars : List Variable} (hd : d.From m)
    (hvars : ∀ v ∈ vars, m.name v.name) :
    (d.allot c vars).Ends (fun d _ vars => d.From m ∧ ∀ v ∈ vars, m.name v.name) m.Blames := by
  unfold VarDecl.allot
  cases hname : d.name with
  | none => exact .done ⟨hd, hvars⟩
  | some name =>
      dsimp only
      split
      next t ht =>
        have hadd : ∀ v ∈ vars ++ [c.newVariable name t], m.name v.name :=
          List.forall_mem_append.mpr ⟨hvars, List.forall_mem_singleton.mpr (hd.name name hname)⟩
        exact .done ⟨⟨⟨hd.span, hname ▸ hd.name, hd.init⟩, hd.type⟩, hadd⟩
      next e he => exact .failed (.of_span (TypeSpec.span_of_encode he) hd.type.span)

theorem VarDecl.ends_allotParams {c : Container} (ds : List VarDecl) : ∀ vars : List Variable,
    (∀ d ∈ ds, d.From m) → (∀ v ∈ vars, m.name v.name) →
      (VarDecl.allotParams c ds vars).Ends (fun ds _ vars => (∀ d ∈ ds, d.From m) ∧
        ∀ v ∈ vars, m.name v.name) m.Blames := by
  induction ds with
  | nil => exact fun vars hds hvars => .done ⟨hds, hvars⟩
  | cons d ds ih =>
      intro vars hds hvars
      obtain ⟨hd, hds⟩ := List.forall_mem_cons.mp hds
      rw [VarDecl.allotParams]
      split
      · refine (VarDecl.ends_allot hd hvars).andThen fun d' _ vars' h => .map ?_
        refine (ih vars' hds h.2).mono (fun ds' _ vars'' h' => ?_) fun _ _ he => he
        exact ⟨List.forall_mem_cons.mpr ⟨h.1, h'.1⟩, h'.2⟩
      · exact .fail hd.span

theorem Part.ends_allot {c : Container} (p : Part) (vars : List Variable) (hp : p.From m)
    (hvars : ∀ v ∈ vars, m.name v.name) :
    (p.allot c vars).Ends (fun p _ vars => p.From m ∧ ∀ v ∈ vars, m.name v.name) m.Blames := by
  cases p with
  | var d => exact .map (VarDecl.ends_allot hp hvars)
  | head h =>
      have hh : h.From m := hp
      exact .fail hh.span
  | _ => exact .done ⟨hp, hvars⟩

theorem Block.ends_allotLocals {c : Container} {b : Block} {vars : List Variable}
    (hb : ∀ p ∈ b.parts, p.From m) (hvars : ∀ v ∈ vars, m.name v.name) :
    (b.allotLocals c vars).Ends (fun b _ vars => (∀ p ∈ b.parts, p.From m) ∧
      ∀ v ∈ vars, m.name v.name) m.Blames := by
  have hrun := Step.Ends.each (Part.ends_allot (c := c)) b.parts vars hb hvars
  rw [← Block.parts_allotLocals] at hrun
  exact hrun.of_map

theorem FuncHead.ends_allotVars {c : Container} {h : FuncHead} {body : Block} (hh : h.From m)
    (hbody : ∀ p ∈ body.parts, p.From m) :
    (h.allotVars c body).Ends (fun t _ vars => (t.1.From m ∧ ∀ p ∈ t.2.parts, p.From m) ∧
      ∀ v ∈ vars, m.name v.name) m.Blames := by
  unfold FuncHead.allotVars
  refine (VarDecl.ends_allotParams h.params [] hh.params fun _ hv => absurd hv List.not_mem_nil).andThen
    fun params _ vars hparams => ?_
  refine (Block.ends_allotLocals hbody hparams.2).andThen fun body' _ all hall => .done ?_
  exact ⟨⟨⟨hh.span, hh.name, hh.result, hparams.1⟩, hall.1⟩, hall.2⟩

theorem FuncHead.ends_allot {h : FuncHead} {body : Block} {s : Session} (hh : h.From m)
    (hbody : ∀ p ∈ body.parts, p.From m) (hs : s.container.Named m) :
    Session.Ends m (fun t => t.1.From m ∧ ∀ p ∈ t.2.parts, p.From m) (h.allot body s) := by
  unfold FuncHead.allot
  split
  · exact .fail hh.span
  · split
    next e he => exact .failed (.of_span (TypeSpec.span_of_encode he) hh.result.span)
    next result _ =>
      have hvars := FuncHead.ends_allotVars (c := s.container) hh hbody
      cases hrun : h.allotVars s.container body with
      | mk tree vars value =>
          rw [hrun] at hvars
          cases value with
          | error e => exact .failed (hvars.error e rfl)
          | ok argCount =>
              obtain ⟨⟨hhead, hparts⟩, hnames⟩ := hvars.ok argCount rfl
              refine .done ⟨⟨⟨hhead.span, hhead.name, hhead.result, hhead.params⟩, hparts⟩, ?_⟩
              exact hs.addFunction hhead.name hnames

theorem VarDecl.ends_allotGlobal {d : VarDecl} {s : Session} (hd : d.From m) (hs : s.container.Named m) :
    Session.Ends m (·.From m) (d.allotGlobal s) := by
  unfold VarDecl.allotGlobal
  cases hname : d.name with
  | none => exact .done ⟨hd, hs⟩
  | some name =>
      dsimp only
      split
      · exact .fail hd.span
      · split
        next e he => exact .failed (.of_span (TypeSpec.span_of_encode he) hd.type.span)
        next t _ =>
          refine .done ⟨⟨⟨hd.span, hname ▸ hd.name, hd.init⟩, hd.type⟩, ?_⟩
          exact hs.addGlobal (hd.name name hname) t

theorem Item.ends_allot {i : Item} {s : Session} (hi : ∀ p ∈ i.parts, p.From m)
    (hs : s.container.Named m) :
    Session.Ends m (fun i => ∀ p ∈ i.parts, p.From m) (i.allot s) := by
  cases i with
  | var d =>
      have hd : d.From m := hi (.var d) (List.mem_singleton.mpr rfl)
      refine .map ((VarDecl.ends_allotGlobal hd hs).mono (fun d' _ s' h => ?_) fun _ _ he => he)
      exact ⟨List.forall_mem_singleton.mpr h.1, h.2⟩
  | func head body =>
      obtain ⟨hhead, hbody⟩ := List.forall_mem_append.mp hi
      obtain ⟨hbody, hleave⟩ := List.forall_mem_append.mp hbody
      have hh : head.From m := hhead (.head head) (List.mem_singleton.mpr rfl)
      have hrun := FuncHead.ends_allot hh hbody hs
      rw [Item.allot]
      generalize head.allot body s = run at hrun
      obtain ⟨⟨head', body'⟩, s', result⟩ := run
      refine ⟨fun u hu => ?_, hrun.error⟩
      obtain ⟨⟨hhead', hbody'⟩, hs'⟩ := hrun.ok u hu
      refine ⟨List.forall_mem_append.mpr ⟨List.forall_mem_singleton.mpr hhead', ?_⟩, hs'⟩
      exact List.forall_mem_append.mpr ⟨hbody', hleave⟩
  | stmt x => exact .done ⟨hi, hs⟩

theorem Item.ends_allotAll (is : List Item) : ∀ s : Session, Item.AllFrom m is → s.container.Named m →
    Session.Ends m (Item.AllFrom m) (Item.allotAll is s) := by
  induction is with
  | nil => exact fun s his hs => .done ⟨his, hs⟩
  | cons i is ih =>
      intro s his hs
      obtain ⟨hi, his⟩ := List.forall_mem_append.mp his
      rw [Item.allotAll]
      refine (Item.ends_allot hi hs).andThen fun i' _ s' h => .map ?_
      refine (ih s' his h.2).mono (fun is' _ s'' h' => ?_) fun _ _ he => he
      exact ⟨List.forall_mem_append.mpr ⟨h.1, h'.1⟩, h'.2⟩

theorem Block.ends_allot {b : Block} {s : Session} (hb : ∀ p ∈ b.parts, p.From m)
    (hs : s.container.Named m) : Session.Ends m (fun b => ∀ p ∈ b.parts, p.From m) (b.allot s) := by
  obtain ⟨items, p⟩ := b
  exact .map (Item.ends_allotAll items s hb hs)

/-! ## Whole programs -/

theorem Container.Named.of_sameTables {c c' : Container} (h : c.Named m) (hsame : c.SameTables c') :
    c'.Named m :=
  ⟨hsame.structs ▸ h.structs, hsame.functions ▸ h.functions, hsame.globals ▸ h.globals⟩

/-- **An analysis blames a place of the program**, and enters names of the program into the tables. -/
theorem Block.ends_analyse {b : Block} {s : Session} (hb : ∀ p ∈ b.parts, p.From m)
    (hs : s.container.Named m) :
    (b.analyse s).Ends (fun _ _ s => s.container.Named m) m.Blames := by
  unfold Block.analyse
  refine (Block.ends_bindTypes hb hs).andThen fun b₁ _ s₁ h₁ => ?_
  dsimp only
  refine (Block.ends_allot h₁.1 (s := s₁.note _) h₁.2).andThen fun b₂ _ s₂ h₂ => ?_
  have hcheck := Block.blames_check b₂ (.ofSession (s₂.note
    (.declarationsDone s₂.container.functions.length s₂.container.globals.length))) h₂.1
  have hpasses := (Block.checks_check b₂ (.ofSession (s₂.note
    (.declarationsDone s₂.container.functions.length s₂.container.globals.length)))).passes
  unfold Block.checkProgram
  generalize b₂.check _ = run at hcheck hpasses
  obtain ⟨b₃, k, result⟩ := run
  refine Step.Ends.andThen (P := fun _ _ s => s.container.Named m) (.ofResult (fun _ _ => ?_) hcheck.error)
    fun _ _ s hs => .done hs
  exact h₂.2.of_sameTables hpasses.tables

/-! ## The stock of a script -/

/-- Where a place in a script may begin or end: at its two ends, and at the ends of lexemes. -/
def Lexeme.IsMark (source : String) (n : Nat) : Prop :=
  n = 0 ∨ n = source.utf8ByteSize ∨ ∃ x ∈ Lexeme.scan source, n = x.span.start ∨ n = x.span.stop

/-- The places between marks of a script, and the texts that are spelled as names. -/
def Stock.ofScript (source : String) : Stock where
  span p := p.start ≤ p.stop ∧ Lexeme.IsMark source p.start ∧ Lexeme.IsMark source p.stop
  name text := (Token.Kind.name text).Spelled text.toList
  merge {a b} ha hb := by
    refine ⟨?_, ?_, ?_⟩
    · have hstart := ha.1
      simp only [Span.merge_start, Span.merge_stop]
      omega
    · rcases Nat.le_total a.start b.start with h | h
      · rw [Span.merge_start, Nat.min_eq_left h]
        exact ha.2.1
      · rw [Span.merge_start, Nat.min_eq_right h]
        exact hb.2.1
    · rcases Nat.le_total a.stop b.stop with h | h
      · rw [Span.merge_stop, Nat.max_eq_right h]
        exact hb.2.2
      · rw [Span.merge_stop, Nat.max_eq_left h]
        exact ha.2.2

/-- A mark is not beyond the end of the script, and no character goes across it. -/
theorem Lexeme.IsMark.valid {source : String} {n : Nat} (h : Lexeme.IsMark source n) :
    String.Pos.Raw.IsValid source ⟨n⟩ := by
  rcases h with rfl | rfl | ⟨x, hx, hn⟩
  · exact String.Pos.Raw.isValid_zero
  · exact String.Pos.Raw.isValid_rawEndPos
  · have htiles : Tiles [] source.toList (Lexeme.scan source) := Lexeme.scanFrom_tiles (Nat.le_refl _)
    obtain ⟨_, _, _, _, hholds, _⟩ := htiles.lexemes rfl x hx
    rcases hn with rfl | rfl
    · exact hholds.valid.1
    · exact hholds.valid.2

theorem Lexeme.from_scan {source : String} : ∀ x ∈ Lexeme.scan source, Lexeme.From (.ofScript source) x := by
  have htiles : Tiles [] source.toList (Lexeme.scan source) := Lexeme.scanFrom_tiles (Nat.le_refl _)
  intro x hx
  obtain ⟨_, text, _, hne, hholds, hfits⟩ := htiles.lexemes rfl x hx
  refine ⟨⟨Nat.le_of_lt (hholds.start_lt_stop hne), .inr (.inr ⟨x, hx, .inl rfl⟩),
    .inr (.inr ⟨x, hx, .inr rfl⟩)⟩, fun t ht name hname => ?_⟩
  have hspelled := (hfits.token t ht).1
  rw [hname] at hspelled
  have hpayload := hspelled.payload name rfl
  rw [String.ofList_toList] at hpayload
  exact hpayload ▸ hspelled

/-- **A script parses to a program out of its stock, or fails at a place of it.** -/
theorem Block.from_script (source : String) :
    (∀ b, Block.parse source = .ok b → b.From (.ofScript source)) ∧
      ∀ e, Block.parse source = .error e → (Stock.ofScript source).span e.span :=
  Block.from_parse Lexeme.from_scan ⟨Nat.le_refl 0, .inl rfl, .inl rfl⟩
    ⟨Nat.le_refl _, .inr (.inl rfl), .inr (.inl rfl)⟩

/-- The bad text that keeps a script from being listed is among its lexemes. -/
theorem Lexeme.mem_scan_of_tokens {source : String} {b : BadText} (h : Lexeme.tokens source = .error b) :
    Except.error b ∈ Lexeme.scan source := by
  obtain ⟨us, rest, hscan⟩ := Lexeme.tokens_eq_error h
  rw [hscan]
  exact List.mem_append_right _ List.mem_cons_self

/-! ## Where a compilation points -/

namespace Compilation

theorem blames_of_listTokens {cfg : Settings} {source : String} {b : BadText}
    (h : listTokens cfg source = .error b) : (Stock.ofScript source).span b.span := by
  unfold listTokens at h
  split at h
  · cases htokens : Lexeme.tokens source with
    | ok ts =>
        rw [htokens] at h
        cases h
    | error b' =>
        rw [htokens] at h
        cases h
        exact (Lexeme.from_scan _ (Lexeme.mem_scan_of_tokens htokens)).span
  · cases h

/-- The diagnostic of a script that does not compile points to a place of its stock. -/
theorem blames_of_ending {version : Nat} {source : String} {e : CompileError}
    (h : ending version source = .error e) :
    ∃ fault p message, e.diagnostic = .inSource fault p message ∧ (Stock.ofScript source).span p := by
  unfold ending at h
  cases hparse : Block.parse source with
  | error err =>
      rw [hparse] at h
      cases h
      have hspan := (Block.from_script source).2 err hparse
      cases err with
      | badText b => exact ⟨_, _, _, rfl, hspan⟩
      | grammar p cause => exact ⟨_, _, _, rfl, hspan⟩
  | ok b =>
      have hends := Block.ends_analyse ((Block.from_script source).1 b hparse).parts
        (s := .ofContainer (.empty version)) (Container.named_empty version)
      rw [hparse] at h
      dsimp only at h
      split at h
      next err herr =>
        cases h
        exact ⟨_, _, _, rfl, hends.error err herr⟩
      next => cases h

/--
**Every reported location is valid.** Whatever keeps a script from compiling, and at whichever stage and
under whichever settings it is found, the diagnostic points into the script: its place does not end before
it starts nor behind the end of the text, and both its ends are ends of characters. They are ends of tokens
or of bad text, or the two ends of the script.
-/
theorem places_valid (cfg : Settings) (name source : String) {e : CompileError}
    (h : (ofSource cfg name source).result = .error e) :
    ∃ fault p message, e.diagnostic = .inSource fault p message ∧
      p.start ≤ p.stop ∧ p.stop ≤ source.utf8ByteSize ∧
      String.Pos.Raw.IsValid source ⟨p.start⟩ ∧ String.Pos.Raw.IsValid source ⟨p.stop⟩ ∧
      Lexeme.IsMark source p.start ∧ Lexeme.IsMark source p.stop := by
  obtain ⟨fault, p, message, hdiagnostic, hle, hstart, hstop⟩ :
      ∃ fault p message, e.diagnostic = .inSource fault p message ∧ (Stock.ofScript source).span p := by
    cases hlisting : listTokens cfg source with
    | error b =>
        rw [ofSource, hlisting] at h
        cases h
        exact ⟨_, _, _, rfl, blames_of_listTokens hlisting⟩
    | ok listing =>
        rw [result_of_listing name hlisting] at h
        exact blames_of_ending h
  have hbound : p.stop ≤ source.utf8ByteSize := hstop.valid.le_rawEndPos
  exact ⟨fault, p, message, hdiagnostic, hle, hbound, hstart.valid, hstop.valid, hstart, hstop⟩

/-- A conditional that folds to a branch of the wrong type, behind a character of two bytes. -/
def branching : String := "/*é*/int x = 1 ? \"a\" : \"b\";"

set_option maxRecDepth 100000 in
theorem places_valid_branching :
    ∃ e, (ofSource ⟨4, true, true, true⟩ "a" branching).result = .error e ∧
      e = .rejected ⟨⟨18, 21⟩, .mismatch .int .string⟩ ∧
      ∃ fault p message, e.diagnostic = .inSource fault p message ∧
        p.start ≤ p.stop ∧ p.stop ≤ branching.utf8ByteSize ∧
        String.Pos.Raw.IsValid branching ⟨p.start⟩ ∧ String.Pos.Raw.IsValid branching ⟨p.stop⟩ ∧
        Lexeme.IsMark branching p.start ∧ Lexeme.IsMark branching p.stop := by
  have hrun : ((ofSource ⟨4, true, true, true⟩ "a" branching).result.map fun _ => ()) =
      .error (.rejected ⟨⟨18, 21⟩, .mismatch .int .string⟩) := by
    decide +kernel
  cases hresult : (ofSource ⟨4, true, true, true⟩ "a" branching).result with
  | ok p => rw [hresult] at hrun; cases hrun
  | error e =>
      rw [hresult] at hrun
      cases hrun
      exact ⟨_, rfl, rfl, places_valid _ _ _ hresult⟩

end Compilation

end Jaf
