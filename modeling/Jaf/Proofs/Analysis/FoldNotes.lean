import Jaf.Proofs.Analysis.SettledTrees

/-!
# What folding puts in the place of a node

A folded node carries the note of the node it replaces, with one exception: a conditional whose
condition is a literal, and a comma list of which only the last item matters, give way to one of their
parts, and it is the part that is folded. What then stands in their place has the place of the part.
`Expr.standIn?` names that part and `Expr.Leaves` follows it down to the node that stays.

So `Expr.fold_replaces` is about types and places at once. Types are kept everywhere, since a part that
stands in has the type of the whole. Places are kept wherever nothing stands in, and a folded tree has no
other nodes: read from the left, its nodes are the folded forms of some nodes of the tree, each of them
with the note it had.
-/

namespace Jaf.Expr

/-! ## Parts that stand in -/

/-- The part of an expression that folding puts in its place, if it gives way to one. -/
def standIn? : Expr → Option Expr
  | ternary _ c y o =>
    match c.fold with
    | int _ v => some (if v = 0 then o else y)
    | _ => none
  | comma _ es => if es.dropLast.all (·.fold.isLiteral) then es.getLast? else none
  | _ => none

/-- `e.Leaves x` if the parts that stand in for `e`, one after the other, end at `x`. -/
inductive Leaves : Expr → Expr → Prop
  | self {e : Expr} (h : e.standIn? = none) : Leaves e e
  | part {e y x : Expr} (h : e.standIn? = some y) (hy : Leaves y x) : Leaves e x

/-- One item matters in a comma list if there are only literals before the last one. -/
theorem effective_eq_singleton {x : Expr} {es : List Expr} :
    effective es = [x] ↔ es.dropLast.all isLiteral = true ∧ es.getLast? = some x := by
  fun_induction effective es with
  | case1 => simp
  | case2 last => simp
  | case3 e es hne hlit ih =>
      obtain ⟨y, ys, rfl⟩ := List.exists_cons_of_ne_nil fun h => hne h
      rw [ih, List.dropLast_cons_cons, List.all_cons, hlit, Bool.true_and, List.getLast?_cons_cons]
  | case4 e es hne hlit ih =>
      obtain ⟨y, ys, rfl⟩ := List.exists_cons_of_ne_nil fun h => hne h
      have hsome : effective (y :: ys) ≠ [] := effective_ne_nil (List.cons_ne_nil y ys)
      simp [List.dropLast_cons_cons, hlit, hsome]

theorem fold_comma (n : Note) (es : List Expr) :
    (comma n es).fold = ofItems n (effective (es.map fold)) := by
  rw [fold, foldList_eq_map]

/-- A comma list gives way to its last item if that is the only one that matters. -/
theorem standIn?_comma {n : Note} {es : List Expr} {x : Expr} :
    (comma n es).standIn? = some x ↔
      effective (es.map fold) = [x.fold] ∧ es.getLast? = some x := by
  have hall : (es.map fold).dropLast.all isLiteral = es.dropLast.all (·.fold.isLiteral) := by
    rw [← List.map_dropLast, List.all_map]
    rfl
  rw [effective_eq_singleton, hall, List.getLast?_map, standIn?]
  split
  next hlit => simp +contextual [hlit]
  next hlit => simp [hlit]

/-- A conditional gives way to the branch that a literal condition selects. -/
theorem standIn?_ternary {n : Note} {c y o x : Expr} :
    (ternary n c y o).standIn? = some x ↔
      ∃ m v, c.fold = int m v ∧ x = if v = 0 then o else y := by
  rw [standIn?]
  cases c.fold with
  | int m v => exact ⟨fun h => ⟨m, v, rfl, (Option.some.inj h).symm⟩, by rintro ⟨_, _, ⟨⟩, rfl⟩; rfl⟩
  | _ => simp

/-- The part that stands in is folded in the place of the whole. -/
theorem fold_eq_of_standIn? {e x : Expr} (h : e.standIn? = some x) : e.fold = x.fold := by
  cases e with
  | ternary n c y o =>
      obtain ⟨m, v, hc, rfl⟩ := standIn?_ternary.mp h
      rw [fold, hc]
      exact (apply_ite fold (v = 0) o y).symm
  | comma n es =>
      obtain ⟨hone, -⟩ := standIn?_comma.mp h
      rw [fold_comma, hone]
      rfl
  | _ => cases h

theorem nodes_sublist_nodesOf {x : Expr} {es : List Expr} (h : x ∈ es) :
    x.nodes.Sublist (nodesOf es) := by
  induction h with
  | head es => exact List.sublist_append_left _ _
  | tail e _ ih => exact ih.trans (List.sublist_append_right _ _)

/-- What stands in lies below the node that it stands in for. -/
theorem nodes_of_standIn? {e x : Expr} (h : e.standIn? = some x) :
    ∃ below, e.nodes = e :: below ∧ x.nodes.Sublist below := by
  cases e with
  | ternary n c y o =>
      obtain ⟨m, v, -, rfl⟩ := standIn?_ternary.mp h
      refine ⟨_, rfl, ?_⟩
      split
      · exact List.sublist_append_right _ _
      · exact (List.sublist_append_right _ _).trans (List.sublist_append_left _ _)
  | comma n es =>
      obtain ⟨-, hlast⟩ := standIn?_comma.mp h
      exact ⟨_, rfl, nodes_sublist_nodesOf (List.mem_of_getLast? hlast)⟩
  | _ => cases h

/-- A conditional that gives way to no branch stays around its folded parts. -/
theorem fold_ternary_of_none {n : Note} {c y o : Expr} (h : (ternary n c y o).standIn? = none) :
    (ternary n c y o).fold = ternary n c.fold y.fold o.fold := by
  rcases fold_ternary (n := n) (c := c) (y := y) (o := o) with ⟨m, v, hc, -⟩ | hfold
  · rw [standIn?_ternary.mpr ⟨m, v, hc, rfl⟩] at h
    cases h
  · exact hfold

/-- A comma list that gives way to no item stays around the items that matter. -/
theorem fold_comma_of_none {n : Note} {es : List Expr} (h : (comma n es).standIn? = none) :
    (comma n es).fold = comma n (effective (es.map fold)) := by
  rw [fold_comma]
  rcases ofItems_cases n (effective (es.map fold)) with ⟨x, hone, -⟩ | hkeep
  · -- one item alone would be the last, and would stand in
    have hlast := (effective_eq_singleton.mp hone).2
    rw [List.getLast?_map] at hlast
    obtain ⟨z, hz, rfl⟩ := Option.map_eq_some_iff.mp hlast
    rw [standIn?_comma.mpr ⟨hone, hz⟩] at h
    cases h
  · exact hkeep

/-- A node that gives way to none of its parts keeps its note. -/
theorem note_fold {e : Expr} (h : e.standIn? = none) : e.fold.note = e.note := by
  cases e with
  | int | float | string | ident => rw [fold]
  | assign | call | member => rw [fold]; rfl
  | unary | binary | cast =>
      rw [fold]
      exact orKeep_cases (P := fun x => x.note = _) (fun v _ => note_toExpr _ v) rfl
  | ternary => rw [fold_ternary_of_none h]; rfl
  | comma => rw [fold_comma_of_none h]; rfl

/-- Every expression leaves one of its nodes, and folding it is folding that node. -/
theorem exists_leaves (e : Expr) :
    ∃ x ∈ e.nodes, e.Leaves x ∧ e.fold = x.fold ∧ x.fold.note = x.note := by
  induction hsize : e.nodes.length using Nat.strongRecOn generalizing e with
  | _ size ih =>
      cases h : e.standIn? with
      | none => exact ⟨e, self_mem_nodes e, .self h, rfl, note_fold h⟩
      | some y =>
          obtain ⟨below, hnodes, hsub⟩ := nodes_of_standIn? h
          have hlt : y.nodes.length < size := by
            rw [← hsize, hnodes]
            exact Nat.lt_succ_of_le hsub.length_le
          obtain ⟨x, hx, hleaves, hfold, hnote⟩ := ih _ hlt y rfl
          refine ⟨x, ?_, .part h hleaves, (fold_eq_of_standIn? h).trans hfold, hnote⟩
          rw [hnodes]
          exact List.mem_cons_of_mem e (hsub.subset hx)

/-! ## The nodes of a folded tree -/

/--
The nodes `ms` are, in this order, the folded forms of nodes among `ns` that give way to none of their
parts.
-/
def Traces (ns ms : List Expr) : Prop :=
  ∃ us : List Expr, us.Sublist ns ∧ us.map fold = ms ∧ ∀ u ∈ us, u.standIn? = none

namespace Traces

variable {ns ns' ms ms' : List Expr}

theorem mono (h : Traces ns ms) (hsub : ns.Sublist ns') : Traces ns' ms := by
  obtain ⟨us, hus, hmap, hstay⟩ := h
  exact ⟨us, hus.trans hsub, hmap, hstay⟩

theorem append (h : Traces ns ms) (h' : Traces ns' ms') : Traces (ns ++ ns') (ms ++ ms') := by
  obtain ⟨us, hus, rfl, hstay⟩ := h
  obtain ⟨us', hus', rfl, hstay'⟩ := h'
  refine ⟨us ++ us', hus.append hus', List.map_append, ?_⟩
  simpa [or_imp, forall_and] using ⟨hstay, hstay'⟩

theorem nil : Traces ns [] := ⟨[], List.nil_sublist ns, rfl, by simp⟩

theorem cons {e : Expr} (he : e.standIn? = none) (h : Traces ns ms) :
    Traces (e :: ns) (e.fold :: ms) := by
  obtain ⟨us, hus, rfl, hstay⟩ := h
  exact ⟨e :: us, hus.cons_cons e, rfl, by simpa using ⟨he, hstay⟩⟩

/-- A node that stays, around what is left of its parts. -/
theorem stays {e kept : Expr} (he : e.standIn? = none) (hfold : e.fold = kept)
    (hkept : kept.nodes = kept :: ms) (h : Traces ns ms) : Traces (e :: ns) e.fold.nodes := by
  rw [hfold, hkept, ← hfold]
  exact h.cons he

/-- An operator is replaced by a literal, and then nothing below it is left, or it stays. -/
theorem operator {e kept : Expr} {n : Note} {value : Option Value} (he : e.standIn? = none)
    (hfold : e.fold = orKeep n value kept) (hkept : kept.nodes = kept :: ms) (h : Traces ns ms) :
    Traces (e :: ns) e.fold.nodes := by
  cases value with
  | none => exact h.stays he hfold hkept
  | some v =>
      have hliteral : (v.toExpr n).nodes = [v.toExpr n] := by cases v <;> rfl
      exact nil.stays he hfold hliteral

/-- A node that gives way leaves what its part leaves. -/
theorem standIn {e x : Expr} (h : e.standIn? = some x) (hx : Traces x.nodes x.fold.nodes) :
    Traces e.nodes e.fold.nodes := by
  obtain ⟨below, hnodes, hsub⟩ := nodes_of_standIn? h
  rw [hnodes, fold_eq_of_standIn? h]
  exact hx.mono (hsub.trans (List.sublist_cons_self e below))

/-- Of a list of expressions, any may be left out. -/
theorem ofSublist {es vs : List Expr} (hvs : vs.Sublist es)
    (h : ∀ e ∈ es, Traces e.nodes e.fold.nodes) : Traces (nodesOf es) (nodesOf (vs.map fold)) := by
  induction hvs with
  | slnil => exact nil
  | cons e _ ih =>
      exact (ih fun a ha => h a (List.mem_cons_of_mem e ha)).mono (List.sublist_append_right _ _)
  | cons_cons e _ ih =>
      exact (h e List.mem_cons_self).append (ih fun a ha => h a (List.mem_cons_of_mem e ha))

end Traces

/-- **The nodes of a folded tree are folded nodes of the tree**, in their order. -/
theorem traces_fold (e : Expr) : Traces e.nodes e.fold.nodes := by
  induction e using induct with
  | int | float | string | ident => exact Traces.nil.stays rfl (by rw [fold]) rfl
  | unary n op e ih | cast n t e ih => exact ih.operator rfl (by rw [fold]) rfl
  | binary n op l r ihl ihr => exact (ihl.append ihr).operator rfl (by rw [fold]) rfl
  | assign n op t v iht ihv => exact (iht.append ihv).stays rfl (by rw [fold]) rfl
  | member n o f p ih => exact ih.stays rfl (by rw [fold]) rfl
  | call n name args k ih =>
      have hargs := Traces.ofSublist (List.Sublist.refl args) ih
      exact hargs.stays rfl (by rw [fold, foldList_eq_map]) rfl
  | ternary n c y o ihc ihy iho =>
      cases h : (ternary n c y o).standIn? with
      | none => exact ((ihc.append ihy).append iho).stays h (fold_ternary_of_none h) rfl
      | some x =>
          refine .standIn h ?_
          obtain ⟨m, v, -, rfl⟩ := standIn?_ternary.mp h
          split
          · exact iho
          · exact ihy
  | comma n es ih =>
      cases h : (comma n es).standIn? with
      | none =>
          obtain ⟨vs, hvs, heff⟩ := List.sublist_map_iff.mp (effective_sublist (es.map fold))
          exact (Traces.ofSublist hvs ih).stays h (heff ▸ fold_comma_of_none h) rfl
      | some x => exact .standIn h (ih x (List.mem_of_getLast? (standIn?_comma.mp h).2))

/--
**What folding replaces.** Once the types of an expression are derived, every node folds to something of
its type. A node that gives way to none of its parts folds to something in its place; otherwise the
place is that of the node it leaves, which is one of its own nodes and has its type. The folded tree has
no nodes but those that are folded in their places: they are, from left to right, the folded forms of
nodes of the tree, with the place and the type that each of these had.
-/
theorem fold_replaces (env : Lookup) (e x : Expr) (t : ValueType) (h : e.infer env = ⟨x, .ok t⟩) :
    (∀ u ∈ x.nodes, u.fold.type? = u.type? ∧ (u.standIn? = none → u.fold.span = u.span) ∧
      ∃ r ∈ u.nodes, u.Leaves r ∧ u.fold = r.fold ∧ u.fold.span = r.span ∧ r.type? = u.type?) ∧
    ∃ us : List Expr, us.Sublist x.nodes ∧ us.map fold = x.fold.nodes ∧
      ∀ u ∈ us, u.standIn? = none ∧ u.fold.span = u.span ∧ u.fold.type? = u.type? := by
  have htypes : ∀ u ∈ x.nodes, u.fold.type? = u.type? :=
    fun u hu => (fold_settled ((infer_settled e h).1.node hu)).2
  refine ⟨fun u hu => ⟨htypes u hu, fun hstay => congrArg Note.span (note_fold hstay), ?_⟩, ?_⟩
  · obtain ⟨r, hr, hleaves, hfold, hnote⟩ := exists_leaves u
    refine ⟨r, hr, hleaves, hfold, ?_, ?_⟩
    · rw [hfold]
      exact congrArg Note.span hnote
    · rw [← htypes u hu, hfold]
      exact (congrArg Note.type hnote).symm
  · obtain ⟨us, hsub, hmap, hstay⟩ := traces_fold x
    refine ⟨us, hsub, hmap, fun u hu => ⟨hstay u hu, ?_, htypes u (hsub.subset hu)⟩⟩
    exact congrArg Note.span (note_fold (hstay u hu))

/-- At `-x+(7,1?2*3:x)`: the comma list leaves the product, and its value stands in the place `8..11`. -/
theorem fold_replaces_sum :
    let env : Lookup := ⟨fun _ => some (.local 0, .int), fun _ => none, fun _ => none⟩
    let place (i j : Nat) := Note.ofSpan ⟨i, j⟩
    let product := binary (place 8 11) .mul (int (place 8 9) 2) (int (place 10 11) 3)
    let choice := ternary (place 6 13) (int (place 6 7) 1) product (ident (place 12 13) "x" none)
    let e := binary (place 0 14) .add (unary (place 0 2) .neg (ident (place 1 2) "x" none))
      (comma (place 3 14) [int (place 4 5) 7, choice])
    let x := (e.infer env).tree
    e.infer env = ⟨x, .ok .int⟩ ∧
      x.fold.nodes.map span = [⟨0, 14⟩, ⟨0, 2⟩, ⟨1, 2⟩, ⟨8, 11⟩] ∧
      (∀ u ∈ x.nodes, u.fold.type? = u.type? ∧ (u.standIn? = none → u.fold.span = u.span) ∧
        ∃ r ∈ u.nodes, u.Leaves r ∧ u.fold = r.fold ∧ u.fold.span = r.span ∧ r.type? = u.type?) ∧
      ∃ us : List Expr, us.Sublist x.nodes ∧ us.map fold = x.fold.nodes ∧
        ∀ u ∈ us, u.standIn? = none ∧ u.fold.span = u.span ∧ u.fold.type? = u.type? := by
  intro env place product choice e x
  have h : e.infer env = ⟨x, .ok .int⟩ := rfl
  exact ⟨h, rfl, fold_replaces env e x .int h⟩

/-- The conditional `1 ? 2 : 3` lies at `0..9` and has a type; the literal it folds to lies at `4..5`. -/
theorem chosen_branch_moves :
    let env : Lookup := ⟨fun _ => none, fun _ => none, fun _ => none⟩
    let place (i j : Nat) := Note.ofSpan ⟨i, j⟩
    let e := ternary (place 0 9) (int (place 0 1) 1) (int (place 4 5) 2) (int (place 8 9) 3)
    let x := (e.infer env).tree
    e.infer env = ⟨x, .ok .int⟩ ∧ x.span = ⟨0, 9⟩ ∧ x.fold = int ⟨⟨4, 5⟩, some .int⟩ 2 ∧
      x.fold.type? = x.type? ∧ x.fold.span ≠ x.span := by
  exact ⟨rfl, rfl, rfl, rfl, by decide⟩

end Jaf.Expr
