import Jaf.Analysis.Outcome

/-!
# Taking successful steps apart

Steps are put together by `andThen` and `map`. A composite step succeeds exactly if its first part does
and the rest succeeds on what the first part left; the equations here say so, with the tree, the state
and the value that are handed on. Proofs about successful steps peel a step apart with them and never
look into `andThen`.

A step that fails leaves something behind too. `Step.Ends` says of a step how it ends in either case, and
has a rule for each way of putting steps together; `Outcome.Ends` is the same without a state.

A walk over blocks and statements often does the same with one thing after the other (`Step.each`). Such
a walk is compared with the run along the list of these things: steps are rewritten by moving maps into
them until both sides are put together in the same order.
-/

namespace Jaf

namespace Outcome

variable {τ υ α β : Type}

@[simp] theorem done_eq_ok {t u : τ} {a b : α} : done t a = ⟨u, .ok b⟩ ↔ t = u ∧ a = b := by
  simp [done]

@[simp] theorem fail_ne_ok {t u : τ} {p : Span} {c : SemanticCause} {b : α} :
    fail t p c ≠ ⟨u, .ok b⟩ := by
  simp [fail]

theorem map_eq_ok {wrap : τ → υ} {o : Outcome τ α} {u : υ} {b : α} :
    o.map wrap = ⟨u, .ok b⟩ ↔ ∃ t, o = ⟨t, .ok b⟩ ∧ wrap t = u := by
  obtain ⟨t, r⟩ := o
  simp only [map, mk.injEq]
  constructor
  · rintro ⟨h, hr⟩; exact ⟨t, ⟨rfl, hr⟩, h⟩
  · rintro ⟨t', ⟨h, hr⟩, h'⟩; exact ⟨by rw [h, h'], hr⟩

theorem andThen_eq_ok {o : Outcome τ α} {wrap : τ → υ} {next : τ → α → Outcome υ β} {u : υ} {b : β} :
    o.andThen wrap next = ⟨u, .ok b⟩ ↔ ∃ t a, o = ⟨t, .ok a⟩ ∧ next t a = ⟨u, .ok b⟩ := by
  obtain ⟨t, r⟩ := o
  cases r with
  | ok a =>
      constructor
      · intro h; exact ⟨t, a, rfl, h⟩
      · rintro ⟨t', a', h, hn⟩; cases h; exact hn
  | error e =>
      constructor
      · intro h; simp [andThen] at h
      · rintro ⟨t', a', h, _⟩; simp at h

/-- How an outcome ends: a success has the property `Q` of tree and value, and a failure the property `E`. -/
structure Ends (o : Outcome τ α) (Q : τ → α → Prop) (E : SemanticError → Prop) : Prop where
  ok : ∀ a, o.result = .ok a → Q o.tree a
  error : ∀ e, o.result = .error e → E e

namespace Ends

variable {Q : υ → β → Prop} {E : SemanticError → Prop}

theorem done {t : υ} {b : β} (h : Q t b) : (Outcome.done t b).Ends Q E where
  ok _ hr := by cases hr; exact h
  error _ hr := by cases hr

theorem failed {t : υ} {e : SemanticError} (h : E e) : (⟨t, .error e⟩ : Outcome υ β).Ends Q E where
  ok _ hr := by cases hr
  error _ hr := by cases hr; exact h

theorem fail {t : υ} {p : Span} {c : SemanticCause} (h : E ⟨p, c⟩) :
    (Outcome.fail t p c : Outcome υ β).Ends Q E := .failed h

theorem map {o : Outcome τ β} {wrap : τ → υ} (h : o.Ends (fun t b => Q (wrap t) b) E) :
    (o.map wrap).Ends Q E := ⟨h.ok, h.error⟩

theorem andThen {o : Outcome τ α} {wrap : τ → υ} {next : τ → α → Outcome υ β} {P : τ → α → Prop}
    (h : o.Ends P E) (hnext : ∀ t a, P t a → (next t a).Ends Q E) : (o.andThen wrap next).Ends Q E := by
  obtain ⟨t, result⟩ := o
  cases result with
  | ok a => exact hnext t a (h.ok a rfl)
  | error e => exact .failed (h.error e rfl)

end Ends

end Outcome

namespace Step

variable {σ τ υ α β : Type}

@[simp] theorem done_eq_ok {t u : τ} {s s' : σ} {a b : α} :
    done t s a = ⟨u, s', .ok b⟩ ↔ t = u ∧ s = s' ∧ a = b := by
  simp [done]

@[simp] theorem fail_ne_ok {t u : τ} {s s' : σ} {p : Span} {c : SemanticCause} {b : α} :
    fail t s p c ≠ ⟨u, s', .ok b⟩ := by
  simp [fail]

@[simp] theorem ofResult_eq_ok {t u : τ} {s s' : σ} {r : Except SemanticError α} {b : α} :
    ofResult t s r = ⟨u, s', .ok b⟩ ↔ t = u ∧ s = s' ∧ r = .ok b := by
  simp [ofResult]

theorem eq_of_isOk {r : Step σ τ Unit} (h : r.result.isOk = true) : r = ⟨r.tree, r.state, .ok ()⟩ := by
  obtain ⟨t, s, result⟩ := r
  cases result with
  | ok u => rfl
  | error e => cases h

theorem map_eq_ok {wrap : τ → υ} {r : Step σ τ α} {u : υ} {s : σ} {b : α} :
    r.map wrap = ⟨u, s, .ok b⟩ ↔ ∃ t, r = ⟨t, s, .ok b⟩ ∧ wrap t = u := by
  obtain ⟨t, s', r⟩ := r
  simp only [map, mk.injEq]
  constructor
  · rintro ⟨h, hs, hr⟩; exact ⟨t, ⟨rfl, hs, hr⟩, h⟩
  · rintro ⟨t', ⟨h, hs, hr⟩, h'⟩; exact ⟨by rw [h, h'], hs, hr⟩

theorem mapState_eq_ok {f : σ → σ} {r : Step σ τ α} {u : τ} {s : σ} {b : α} :
    r.mapState f = ⟨u, s, .ok b⟩ ↔ ∃ s', r = ⟨u, s', .ok b⟩ ∧ f s' = s := by
  obtain ⟨t, s', r⟩ := r
  simp only [mapState, mk.injEq]
  constructor
  · rintro ⟨h, hs, hr⟩; exact ⟨s', ⟨h, rfl, hr⟩, hs⟩
  · rintro ⟨s'', ⟨h, hs, hr⟩, h'⟩; exact ⟨h, by rw [hs, h'], hr⟩

theorem andThen_eq_ok {r : Step σ τ α} {wrap : τ → υ} {next : τ → α → σ → Step σ υ β}
    {u : υ} {s' : σ} {b : β} :
    r.andThen wrap next = ⟨u, s', .ok b⟩ ↔
      ∃ t s a, r = ⟨t, s, .ok a⟩ ∧ next t a s = ⟨u, s', .ok b⟩ := by
  obtain ⟨t, s, r⟩ := r
  cases r with
  | ok a =>
      constructor
      · intro h; exact ⟨t, s, a, rfl, h⟩
      · rintro ⟨t', s₁, a', h, hn⟩; cases h; exact hn
  | error e =>
      constructor
      · intro h; simp [andThen] at h
      · rintro ⟨t', s₁, a', h, _⟩; simp at h

/-! ## Steps seen through a map -/

variable {ω : Type}

@[simp] theorem map_map (g : υ → ω) (wrap : τ → υ) (r : Step σ τ α) :
    (r.map wrap).map g = r.map fun t => g (wrap t) := rfl

@[simp] theorem map_done (wrap : τ → υ) (t : τ) (s : σ) (a : α) :
    (done t s a).map wrap = done (wrap t) s a := rfl

/-- Only the tree that is left matters to a map. -/
theorem map_congr {wrap wrap' : τ → υ} {r : Step σ τ α} (h : wrap r.tree = wrap' r.tree) :
    r.map wrap = r.map wrap' := by
  rw [map, map, h]

theorem map_andThen (g : υ → ω) (r : Step σ τ α) (wrap : τ → υ) (next : τ → α → σ → Step σ υ β) :
    (r.andThen wrap next).map g =
      r.andThen (fun t => g (wrap t)) fun t a s => (next t a s).map g := by
  obtain ⟨t, s, r⟩ := r
  cases r <;> rfl

@[simp] theorem andThen_done (t : τ) (s : σ) (a : α) (wrap : τ → υ) (next : τ → α → σ → Step σ υ β) :
    (done t s a).andThen wrap next = next t a s := rfl

theorem andThen_map (wrap : τ → υ) (r : Step σ τ α) (wrap' : υ → ω)
    (next : υ → α → σ → Step σ ω β) :
    (r.map wrap).andThen wrap' next =
      r.andThen (fun t => wrap' (wrap t)) fun t a s => next (wrap t) a s := by
  obtain ⟨t, s, r⟩ := r
  cases r <;> rfl

theorem andThen_andThen {γ : Type} (r : Step σ τ α) (wrap : τ → υ)
    (next : τ → α → σ → Step σ υ β) (wrap' : υ → ω) (last : υ → β → σ → Step σ ω γ) :
    (r.andThen wrap next).andThen wrap' last =
      r.andThen (fun t => wrap' (wrap t)) fun t a s => (next t a s).andThen wrap' last := by
  obtain ⟨t, s, r⟩ := r
  cases r <;> rfl

/-- What holds of the tree where a sequence stops and where it goes on holds of the tree that is left. -/
theorem tree_andThen {P : υ → Prop} {r : Step σ τ α} {wrap : τ → υ} {next : τ → α → σ → Step σ υ β}
    (hwrap : P (wrap r.tree)) (hnext : ∀ a, P (next r.tree a r.state).tree) :
    P (r.andThen wrap next).tree := by
  obtain ⟨t, s, r⟩ := r
  cases r with
  | ok a => exact hnext a
  | error e => exact hwrap

/-! ## One thing after the other -/

/-- Does the same with the things of a list, one after the other. -/
def each (f : τ → σ → Step σ τ Unit) : List τ → σ → Step σ (List τ) Unit
  | [], s => .done [] s ()
  | t :: ts, s => (f t s).andThen (· :: ts) fun t _ s => (each f ts s).map (t :: ·)

section Each

variable {f : ω → σ → Step σ ω Unit}

@[simp] theorem each_nil (s : σ) : each f [] s = done [] s () := rfl

theorem each_cons_cons (t u : ω) (ts : List ω) (s : σ) :
    each f (t :: u :: ts) s =
      (f t s).andThen (· :: u :: ts) fun t _ s => (each f (u :: ts) s).map (t :: ·) := rfl

theorem each_singleton (t : ω) (s : σ) : each f [t] s = (f t s).map ([·]) := by
  simp only [each]
  obtain ⟨t', s', result⟩ := f t s
  cases result <;> rfl

theorem each_append (ts us : List ω) (s : σ) :
    each f (ts ++ us) s =
      (each f ts s).andThen (· ++ us) fun ts _ s => (each f us s).map (ts ++ ·) := by
  induction ts generalizing s with
  | nil => rfl
  | cons t ts ih =>
      simp only [List.cons_append, each, ih, andThen_andThen, andThen_map, map_andThen, map_map]

/-- What every step leaves as it is in a thing, the run leaves as it is in all of them. -/
theorem tree_each {κ : Type} {g : ω → κ} (h : ∀ t s, g (f t s).tree = g t) (ts : List ω) (s : σ) :
    (each f ts s).tree.map g = ts.map g := by
  induction ts generalizing s with
  | nil => rfl
  | cons t ts ih =>
      rw [each]
      refine tree_andThen (P := fun us : List ω => us.map g = (t :: ts).map g) ?_ fun _ => ?_
      · rw [List.map_cons, List.map_cons, h t s]
      · rw [map, List.map_cons, List.map_cons, h t s, ih]

/-- If two parts of a walk go along two lists, then the one after the other goes along both. -/
theorem each_both {r : Step σ τ Unit} {next : σ → Step σ υ Unit} {g : τ → List ω} {g' : υ → List ω}
    {ts us : List ω} {s : σ} (hr : r.map g = each f ts s)
    (hnext : ∀ s, (next s).map g' = each f us s) :
    (r.andThen (fun t => g t ++ us) fun t _ s => (next s).map fun u => g t ++ g' u) =
      each f (ts ++ us) s := by
  rw [each_append, ← hr, andThen_map]
  congr 1
  funext t _ s
  rw [← hnext s, map_map]

/-- If each of some steps goes along a list, then one after the other they go along all of the lists. -/
theorem each_flatMap {g : τ → σ → Step σ τ Unit} {list : τ → List ω} {ts : List τ}
    (h : ∀ t ∈ ts, ∀ s, (g t s).map list = each f (list t) s) (s : σ) :
    (each g ts s).map (List.flatMap list) = each f (ts.flatMap list) s := by
  induction ts generalizing s with
  | nil => rfl
  | cons t ts ih =>
      obtain ⟨ht, hts⟩ := List.forall_mem_cons.mp h
      rw [List.flatMap_cons, ← each_both (ht s) (ih hts), each, map_andThen]
      rfl

end Each

/-! ## How steps end -/

/--
How a step ends: a success has the property `Q` of tree, value and state, and a failure the property `E`
of error and state.
-/
structure Ends (r : Step σ τ α) (Q : τ → α → σ → Prop) (E : SemanticError → σ → Prop) : Prop where
  ok : ∀ a, r.result = .ok a → Q r.tree a r.state
  error : ∀ e, r.result = .error e → E e r.state

namespace Ends

variable {Q : υ → β → σ → Prop} {E : SemanticError → σ → Prop}

theorem done {t : υ} {s : σ} {b : β} (h : Q t b s) : (Step.done t s b).Ends Q E where
  ok _ hr := by cases hr; exact h
  error _ hr := by cases hr

theorem failed {t : υ} {s : σ} {e : SemanticError} (h : E e s) :
    (Step.ofResult t s (.error e) : Step σ υ β).Ends Q E where
  ok _ hr := by cases hr
  error _ hr := by cases hr; exact h

theorem fail {t : υ} {s : σ} {p : Span} {c : SemanticCause} (h : E ⟨p, c⟩ s) :
    (Step.fail t s p c : Step σ υ β).Ends Q E := .failed h

theorem map {r : Step σ τ β} {wrap : τ → υ} (h : r.Ends (fun t b s => Q (wrap t) b s) E) :
    (r.map wrap).Ends Q E := ⟨h.ok, h.error⟩

theorem of_map {r : Step σ τ β} {wrap : τ → υ} (h : (r.map wrap).Ends Q E) :
    r.Ends (fun t b s => Q (wrap t) b s) E := ⟨h.ok, h.error⟩

/-- A sequence: how the first step ends is known to the second. -/
theorem andThen {r : Step σ τ α} {wrap : τ → υ} {next : τ → α → σ → Step σ υ β}
    {P : τ → α → σ → Prop} (h : r.Ends P E) (hnext : ∀ t a s, P t a s → (next t a s).Ends Q E) :
    (r.andThen wrap next).Ends Q E := by
  obtain ⟨t, s, result⟩ := r
  cases result with
  | ok a => exact hnext t a s (h.ok a rfl)
  | error e => exact .failed (h.error e rfl)

theorem mono {r : Step σ υ β} {P : υ → β → σ → Prop} {F : SemanticError → σ → Prop}
    (h : r.Ends P F) (hQ : ∀ t b s, P t b s → Q t b s) (hE : ∀ e s, F e s → E e s) : r.Ends Q E :=
  ⟨fun b hr => hQ _ _ _ (h.ok b hr), fun e hr => hE _ _ (h.error e hr)⟩

theorem mono_error {r : Step σ υ β} {F : SemanticError → σ → Prop} (h : r.Ends Q F)
    (hE : ∀ e s, F e s → E e s) : r.Ends Q E := h.mono (fun _ _ _ hQ => hQ) hE

theorem ofResult {t : υ} {s : σ} {r : Except SemanticError β} (hok : ∀ b, r = .ok b → Q t b s)
    (herror : ∀ e, r = .error e → E e s) : (Step.ofResult t s r).Ends Q E := ⟨hok, herror⟩

theorem mapState {r : Step σ υ β} {f : σ → σ} (h : r.Ends (fun t b s => Q t b (f s)) fun e s => E e (f s)) :
    (r.mapState f).Ends Q E := ⟨h.ok, h.error⟩

/-- A run: what every step keeps of its thing and of the state, the run keeps of all of them. -/
theorem each {f : τ → σ → Step σ τ Unit} {P : τ → Prop} {I : σ → Prop}
    (h : ∀ t s, P t → I s → (f t s).Ends (fun t _ s => P t ∧ I s) E) (ts : List τ) :
    ∀ s, (∀ t ∈ ts, P t) → I s → (Step.each f ts s).Ends (fun ts _ s => (∀ t ∈ ts, P t) ∧ I s) E := by
  induction ts with
  | nil => exact fun s hts hs => .done ⟨hts, hs⟩
  | cons t ts ih =>
      intro s hts hs
      obtain ⟨ht, hts⟩ := List.forall_mem_cons.mp hts
      refine (h t s ht hs).andThen fun t' _ s' hnext => .map ?_
      refine (ih s' hts hnext.2).mono (fun ts' _ s'' hrest => ?_) fun _ _ he => he
      exact ⟨List.forall_mem_cons.mpr ⟨hnext.1, hrest.1⟩, hrest.2⟩

/-- Only what a success leaves is to be known. -/
theorem of_eq_ok {r : Step σ υ β} (h : ∀ t b s, r = ⟨t, s, .ok b⟩ → Q t b s) : r.Ends Q fun _ _ => True :=
  ⟨fun b hr => h _ b _ (by rw [← hr]), fun _ _ => trivial⟩

theorem eq_ok {r : Step σ υ β} (h : r.Ends Q E) {t : υ} {b : β} {s : σ} (hr : r = ⟨t, s, .ok b⟩) :
    Q t b s := by
  subst hr
  exact h.ok b rfl

/-- What is known of the tree in any case may be used where a success is described. -/
theorem of_tree {r : Step σ υ β} {P : υ → Prop} (htree : P r.tree)
    (h : r.Ends (fun t b s => P t → Q t b s) E) : r.Ends Q E :=
  ⟨fun b hr => h.ok b hr htree, h.error⟩

/-- What is known of a success may name the step that succeeds. -/
theorem named {r : Step σ υ β} (h : r.Ends Q E) :
    r.Ends (fun t b s => r = ⟨t, s, .ok b⟩ ∧ Q t b s) E :=
  ⟨fun b hr => ⟨by rw [← hr], h.ok b hr⟩, h.error⟩

end Ends

end Step

end Jaf
