import Jaf.Proofs.Analysis.Traversals
import Jaf.Proofs.Parser.ParsedTrees

/-!
# What settling types leaves alone

Settling the types of a program fills the struct table and writes struct numbers into types. It enters
no function and no global, and it neither adds nor loses an expression: the bodies of structs are
rewritten, and what stands in them stays. So a script is still a script afterwards.

The walk over a program is the same for both steps of the pass, so what the walk keeps is proved for
any update of single types that keeps it.
-/

namespace Jaf

/-- The functions and globals are the same. -/
structure Container.SameNames (c c' : Container) : Prop where
  functions : c'.functions = c.functions
  globals : c'.globals = c.globals

namespace Container.SameNames

theorem refl (c : Container) : c.SameNames c := ⟨rfl, rfl⟩

theorem trans {a b c : Container} (h : a.SameNames b) (h' : b.SameNames c) : a.SameNames c :=
  ⟨h'.functions.trans h.functions, h'.globals.trans h.globals⟩

end Container.SameNames

mutual

/-- A type without what settling writes: kinds and struct numbers, in its body too. -/
def TypeSpec.bare : TypeSpec → TypeSpec
  | ⟨_, name, _, none, span⟩ => ⟨.void, name, none, none, span⟩
  | ⟨_, name, _, some decls, span⟩ => ⟨.void, name, none, some (VarDecl.bareAll decls), span⟩

def VarDecl.bareAll : List VarDecl → List VarDecl
  | [] => []
  | ⟨name, type, init, slot, span⟩ :: ds => ⟨name, type.bare, init, slot, span⟩ :: VarDecl.bareAll ds

end

mutual

theorem TypeSpec.exprs_bare : ∀ t : TypeSpec, t.bare.exprs = t.exprs
  | ⟨_, _, _, none, _⟩ => rfl
  | ⟨_, _, _, some decls, _⟩ => VarDecl.exprsOf_bareAll decls

theorem VarDecl.exprsOf_bareAll : ∀ ds : List VarDecl, VarDecl.exprsOf (VarDecl.bareAll ds) = VarDecl.exprsOf ds
  | [] => rfl
  | ⟨_, type, _, _, _⟩ :: ds => by simp [VarDecl.bareAll, type.exprs_bare, VarDecl.exprsOf_bareAll ds]

end

theorem TypeSpec.exprs_of_bare {t t' : TypeSpec} (h : t'.bare = t.bare) : t'.exprs = t.exprs := by
  rw [← t'.exprs_bare, h, t.exprs_bare]

theorem VarDecl.exprsOf_of_bareAll {ds ds' : List VarDecl} (h : bareAll ds' = bareAll ds) :
    exprsOf ds' = exprsOf ds := by
  rw [← exprsOf_bareAll ds', h, exprsOf_bareAll ds]

/-- An update of types that writes kinds and numbers only and touches no function and no global. -/
def TypeSpec.Modest (f : TypeSpec → Session → Step Session TypeSpec Unit) : Prop :=
  ∀ {t t' : TypeSpec} {s s' : Session}, f t s = ⟨t', s', .ok ()⟩ →
    t'.bare = t.bare ∧ s.container.SameNames s'.container

/-! ## Entering definitions -/

mutual

theorem TypeSpec.register_keeps : ∀ (t : TypeSpec) {t' : TypeSpec} {s s' : Session} {n : Nat},
    t.register s = ⟨t', s', .ok n⟩ → t'.bare = t.bare ∧ s.container.SameNames s'.container
  | ⟨kind, name, number, members, span⟩, t', s, s', n, h => by
    unfold TypeSpec.register at h
    cases name with
    | none => simp at h
    | some text =>
        dsimp only at h
        split at h
        · simp at h
        · cases members with
          | none =>
              obtain ⟨rfl, rfl, rfl⟩ := Step.done_eq_ok.mp h
              exact ⟨rfl, rfl, rfl⟩
          | some decls =>
              obtain ⟨ds, u, _, hds, h⟩ := Step.andThen_eq_ok.mp h
              obtain ⟨rfl, rfl, rfl⟩ := Step.done_eq_ok.mp h
              obtain ⟨he, hu⟩ := registerMembers_keeps decls hds
              exact ⟨by rw [TypeSpec.bare, he, TypeSpec.bare], hu.functions, hu.globals⟩

theorem TypeSpec.registerMembers_keeps : ∀ (ds : List VarDecl) {ds' : List VarDecl} {s s' : Session},
    registerMembers ds s = ⟨ds', s', .ok ()⟩ →
      VarDecl.bareAll ds' = VarDecl.bareAll ds ∧ s.container.SameNames s'.container
  | [], ds', s, s', h => by
    unfold registerMembers at h
    obtain ⟨rfl, rfl, _⟩ := Step.done_eq_ok.mp h
    exact ⟨rfl, .refl _⟩
  | ⟨name, type, init, slot, span⟩ :: ds, ds', s, s', h => by
    unfold registerMembers at h
    split at h
    · obtain ⟨type', u, _, htype, h⟩ := Step.andThen_eq_ok.mp h
      obtain ⟨rest, hrest, rfl⟩ := Step.map_eq_ok.mp h
      obtain ⟨he, hu⟩ := register_keeps type htype
      obtain ⟨he', hu'⟩ := registerMembers_keeps ds hrest
      exact ⟨by rw [VarDecl.bareAll, he, he', VarDecl.bareAll], hu.trans hu'⟩
    · obtain ⟨rest, hrest, rfl⟩ := Step.map_eq_ok.mp h
      obtain ⟨he', hu'⟩ := registerMembers_keeps ds hrest
      exact ⟨by rw [VarDecl.bareAll, he', VarDecl.bareAll], hu'⟩

end

namespace TypeSpec

theorem modest_registerNew : Modest registerNew := by
  intro t t' s s' h
  unfold registerNew at h
  split at h
  · obtain ⟨u, v, n, hreg, h⟩ := Step.andThen_eq_ok.mp h
    obtain ⟨rfl, rfl, _⟩ := Step.done_eq_ok.mp h
    exact register_keeps t hreg
  · obtain ⟨rfl, rfl, _⟩ := Step.done_eq_ok.mp h
    exact ⟨rfl, .refl _⟩

theorem number_keeps {t t' : TypeSpec} {s s' : Session} {n : Nat}
    (h : t.number s = ⟨t', s', .ok n⟩) :
    t'.bare = t.bare ∧ s.container.SameNames s'.container := by
  unfold number at h
  split at h
  · obtain ⟨rfl, rfl, _⟩ := Step.done_eq_ok.mp h
    exact ⟨rfl, .refl _⟩
  · exact register_keeps t h

/-! ## Binding names -/

theorem modest_bindName : Modest bindName := by
  intro t t' s s' h
  unfold bindName at h
  dsimp only at h
  split at h
  · obtain ⟨rfl, rfl, _⟩ := Step.done_eq_ok.mp h
    obtain ⟨kind, name, number, members, span⟩ := t
    exact ⟨by cases members <;> rfl, .refl _⟩
  · simp at h

theorem bindMembers_keeps {bind : TypeSpec → Session → Step Session TypeSpec Unit}
    (hb : Modest bind) : ∀ (ds : List VarDecl) {ds' : List VarDecl} {vs : List Variable}
      {s s' : Session}, bindMembers bind ds s = ⟨ds', s', .ok vs⟩ →
      VarDecl.bareAll ds' = VarDecl.bareAll ds ∧ s.container.SameNames s'.container := by
  intro ds
  induction ds with
  | nil =>
      intro ds' vs s s' h
      obtain ⟨rfl, rfl, _⟩ := Step.done_eq_ok.mp h
      exact ⟨rfl, .refl _⟩
  | cons d ds ih =>
      intro ds' vs s s' h
      obtain ⟨name, type, init, slot, span⟩ := d
      unfold bindMembers at h
      split at h
      · obtain ⟨rest, hrest, rfl⟩ := Step.map_eq_ok.mp h
        obtain ⟨he, hu⟩ := ih hrest
        exact ⟨by rw [VarDecl.bareAll, he, VarDecl.bareAll], hu⟩
      · obtain ⟨type', u, _, htype, h⟩ := Step.andThen_eq_ok.mp h
        obtain ⟨he, hu⟩ := hb htype
        dsimp only at h
        split at h
        · simp at h
        · obtain ⟨rest, v, others, hrest, h⟩ := Step.andThen_eq_ok.mp h
          obtain ⟨rfl, rfl, _⟩ := Step.done_eq_ok.mp h
          obtain ⟨he', hu'⟩ := ih hrest
          exact ⟨by rw [VarDecl.bareAll, he, he', VarDecl.bareAll], hu.trans hu'⟩

theorem modest_bindWithin (n : Nat) : Modest (bindWithin n) := by
  induction n using Nat.strongRecOn with
  | ind n ih =>
      intro t t' s s' h
      unfold bindWithin at h
      split at h
      · exact modest_bindName h
      · simp at h
      next m _ =>
        split at h
        next hbody =>
          obtain ⟨u, v, no, hno, h⟩ := Step.andThen_eq_ok.mp h
          obtain ⟨ds, w, vs, hds, h⟩ := Step.andThen_eq_ok.mp h
          obtain ⟨rfl, rfl, _⟩ := Step.done_eq_ok.mp h
          obtain ⟨he, hv⟩ := number_keeps hno
          obtain ⟨he', hw⟩ := bindMembers_keeps (ih m (Nat.lt_succ_self m)) _ hds
          refine ⟨?_, hv.trans ⟨hw.functions, hw.globals⟩⟩
          rw [← he]
          obtain ⟨kind, name, number, _ | decls, span⟩ := u
          · obtain ⟨_, _, _, _ | _, _⟩ := t
            · cases hbody
            · cases he
          · exact congrArg (TypeSpec.mk .void name none · span) (congrArg some he')
        · obtain ⟨rfl, rfl, _⟩ := Step.done_eq_ok.mp h
          exact ⟨rfl, .refl _⟩
      · obtain ⟨rfl, rfl, _⟩ := Step.done_eq_ok.mp h
        exact ⟨rfl, .refl _⟩

theorem modest_bind : Modest bind := fun h => modest_bindWithin _ h

end TypeSpec

/-! ## The walk over a program -/

variable {f : TypeSpec → Session → Step Session TypeSpec Unit}

theorem VarDecl.updateTypes_keeps (hf : TypeSpec.Modest f) :
    ∀ (ds : List VarDecl) {ds' : List VarDecl} {s s' : Session},
      VarDecl.updateTypes f ds s = ⟨ds', s', .ok ()⟩ →
      VarDecl.bareAll ds' = VarDecl.bareAll ds ∧ s.container.SameNames s'.container := by
  intro ds
  induction ds with
  | nil =>
      intro ds' s s' h
      obtain ⟨rfl, rfl, _⟩ := Step.done_eq_ok.mp h
      exact ⟨rfl, .refl _⟩
  | cons d ds ih =>
      intro ds' s s' h
      obtain ⟨name, type, init, slot, span⟩ := d
      obtain ⟨type', u, _, htype, h⟩ := Step.andThen_eq_ok.mp h
      obtain ⟨rest, hrest, rfl⟩ := Step.map_eq_ok.mp h
      obtain ⟨he, hu⟩ := hf htype
      obtain ⟨he', hu'⟩ := ih hrest
      exact ⟨by rw [VarDecl.bareAll, he, he', VarDecl.bareAll], hu.trans hu'⟩

theorem FuncHead.updateTypes_keeps (hf : TypeSpec.Modest f) {h h' : FuncHead} {s s' : Session}
    (hs : h.updateTypes f s = ⟨h', s', .ok ()⟩) (body body' : Block) :
    (Item.func h' body').strays = (Item.func h body).strays ∧
      s.container.SameNames s'.container := by
  obtain ⟨t, u, _, ht, hs⟩ := Step.andThen_eq_ok.mp hs
  obtain ⟨ds, hds, rfl⟩ := Step.map_eq_ok.mp hs
  obtain ⟨he, hu⟩ := hf ht
  obtain ⟨he', hu'⟩ := VarDecl.updateTypes_keeps hf h.params hds
  exact ⟨by simp [Item.strays, TypeSpec.exprs_of_bare he, VarDecl.exprsOf_of_bareAll he'], hu.trans hu'⟩

/--
A step that keeps the strays of what it changes, if it succeeds, and enters no function and no global;
`declarations` are those of a part.
-/
def Step.Keeps {τ : Type} (declarations : τ → List Item) (t : τ) (s : Session)
    (r : Step Session τ Unit) : Prop :=
  r.Ends (fun t' _ s' => Item.straysOf (declarations t') = Item.straysOf (declarations t) ∧
    s.container.SameNames s'.container) fun _ _ => True

theorem Step.Keeps.each {τ : Type} {declarations : τ → List Item}
    {step : τ → Session → Step Session τ Unit} {ts : List τ}
    (h : ∀ t ∈ ts, ∀ s, Step.Keeps declarations t s (step t s)) (s : Session) :
    Step.Keeps (List.flatMap declarations) ts s (Step.each step ts s) := by
  induction ts generalizing s with
  | nil => exact .done ⟨rfl, .refl _⟩
  | cons t ts ih =>
      obtain ⟨ht, hts⟩ := List.forall_mem_cons.mp h
      refine Step.Ends.andThen (ht s) ?_
      rintro t' _ s' ⟨he, hs'⟩
      refine .map (Step.Ends.mono (ih hts s') ?_ fun _ _ h => h)
      rintro ts' _ s'' ⟨he', hs''⟩
      exact ⟨by simp [he, he'], hs'.trans hs''⟩

theorem Traversal.updateTypes_keeps (hf : TypeSpec.Modest f) : (updateTypes f).Rules
    (Step.Keeps Block.declarations) (Step.Keeps Item.declarations) (Step.Keeps Stmt.declarations)
    (Step.Keeps Clause.declarations) where
  block items p hitems s := by
    have hrun := Step.Keeps.each hitems s
    rw [← funext Item.declarationsOf_eq_flatMap] at hrun
    exact .map hrun
  var d s := by
    refine .of_eq_ok fun i' _ s' h => ?_
    obtain ⟨d', hd, rfl⟩ := Step.map_eq_ok.mp h
    change (if d.isForward then _ else _) = _ at hd
    split at hd
    · obtain ⟨rfl, rfl, _⟩ := Step.done_eq_ok.mp hd
      exact ⟨rfl, .refl _⟩
    · obtain ⟨t, ht, rfl⟩ := Step.map_eq_ok.mp hd
      obtain ⟨he, hu⟩ := hf ht
      exact ⟨by simp [Item.strays, TypeSpec.exprs_of_bare he], hu⟩
  func head body hbody s := by
    refine .of_eq_ok fun i' _ s' h => ?_
    change (Item.func head body).updateTypes f s = _ at h
    unfold Item.updateTypes at h
    obtain ⟨head', u, _, hhead, h⟩ := Step.andThen_eq_ok.mp h
    obtain ⟨body', hok, rfl⟩ := Step.map_eq_ok.mp h
    obtain ⟨he, hu⟩ := FuncHead.updateTypes_keeps hf hhead body body'
    obtain ⟨he', hu'⟩ := (hbody u).eq_ok hok
    exact ⟨by simp [he, he'], hu.trans hu'⟩
  stmt x hx s := .map (hx s)
  value _ _ := .done ⟨rfl, .refl _⟩
  result _ _ _ := .done ⟨rfl, .refl _⟩
  scope b hb s := .map (hb s)
  opening b hb s := .map (hb s)
  inner x hx s := .map (hx s)
  clauses x hclauses s := by
    refine Step.Ends.map (.of_tree (P := fun cs => (x.withClauses cs).clauses = cs) (by simp) ?_)
    rw [plain_updateTypes.clauses_eq]
    refine (Step.Keeps.each hclauses s).mono ?_ fun _ _ h => h
    intro cs _ s' hkeeps hcs
    rwa [Stmt.declarations_clauses, Stmt.declarations_clauses, hcs]

/-- The walk turns declarations into declarations. -/
theorem Item.isDeclaration_updateTypes (i : Item) (s : Session) :
    (i.updateTypes f s).tree.isDeclaration = i.isDeclaration := by
  cases i with
  | var d =>
      unfold Item.updateTypes
      split <;> rfl
  | func head body =>
      unfold Item.updateTypes
      exact Step.tree_andThen (P := fun i : Item => i.isDeclaration = true) rfl fun _ => rfl
  | stmt x =>
      unfold Item.updateTypes
      rfl

theorem Block.isScript_updateTypes (hf : TypeSpec.Modest f) {b b' : Block} {s s' : Session}
    (h : b.updateTypes f s = ⟨b', s', .ok ()⟩) (hb : b.IsScript) :
    b'.IsScript ∧ s.container.SameNames s'.container := by
  obtain ⟨he, hu⟩ := ((Traversal.updateTypes_keeps hf).forBlock b s).eq_ok h
  refine ⟨hb.transfer he ?_, hu⟩
  obtain ⟨items, p⟩ := b
  unfold Block.updateTypes at h
  obtain ⟨items', hitems, rfl⟩ := Step.map_eq_ok.mp h
  rw [Item.updateTypesOf_eq_each] at hitems
  have hkinds := Step.tree_each (f := Item.updateTypes f) Item.isDeclaration_updateTypes items s
  rwa [hitems] at hkinds

/-- **Settling types keeps a script a script**, and enters no function and no global. -/
theorem Block.isScript_bindTypes {b b' : Block} {s s' : Session}
    (h : b.bindTypes s = ⟨b', s', .ok ()⟩) (hb : b.IsScript) :
    b'.IsScript ∧ s.container.SameNames s'.container := by
  obtain ⟨b₁, s₁, _, h₁, h⟩ := Step.andThen_eq_ok.mp h
  obtain ⟨hb₁, hs₁⟩ := isScript_updateTypes TypeSpec.modest_registerNew h₁ hb
  obtain ⟨hb', hs'⟩ := isScript_updateTypes TypeSpec.modest_bind h hb₁
  exact ⟨hb', hs₁.trans hs'⟩

end Jaf
