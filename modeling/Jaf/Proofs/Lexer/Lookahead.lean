import Jaf.Proofs.Lexer.Tiling

/-!
# Looking ahead

A reader can be called for the next lexeme or for a look at it, in any order. `Reader.run` lists the
answers. Whatever the reader keeps inside, all that matters is which lexemes are still to come
(`Reader.lexeme`): a call for the next lexeme takes the first of them, a look at a token takes nothing, and
a look at bad text takes it too (`Reader.ask_eq`).

So a look is not always without effect. Bad text is reported once, and if a look reports it, the next
lexeme is the one behind it. The main theorem says that this is the only way in which looks are noticed:
leaving them out changes nothing about the lexemes handed out exactly if none that is followed by a call
for a lexeme has met bad text, and a look shows what is handed out next exactly if it shows a token.
-/

namespace Jaf

namespace Reader

/-! ## Calls and answers -/

/-- What a reader can be called for: the next lexeme, or a look at it. -/
inductive Call where
  | next
  | peek
deriving DecidableEq

/-- The answer to a call, and the reader after it. -/
def ask (r : Reader) : Call → Lexeme × Reader
  | .next => r.next
  | .peek => r.peek

/-- The answers to calls that are made one after the other, each with its call. -/
def run : Reader → List Call → List (Call × Lexeme)
  | _, [] => []
  | r, c :: cs => (c, (r.ask c).1) :: run (r.ask c).2 cs

/-- The lexemes that are handed out in a run. -/
def handed (xs : List (Call × Lexeme)) : List Lexeme :=
  (xs.filter fun x => x.1 = .next).map Prod.snd

/-- Whether a call takes the lexeme that it is answered by: all do but a look at a token. -/
def Call.takes : Call → Lexeme → Bool
  | .next, _ => true
  | .peek, x => !x.isOk

/-- The answers that were taken in a run. -/
def taken (xs : List (Call × Lexeme)) : List Lexeme :=
  (xs.filter fun x => x.1.takes x.2).map Prod.snd

/-- No look has met bad text but those after which no lexeme was called for. -/
def Undisturbed (xs : List (Call × Lexeme)) : Prop :=
  ∀ us b vs, xs = us ++ (.peek, .error b) :: vs → ∀ x ∈ vs, x.1 = .peek

/-! ## What is still to come -/

/-- The lexemes that are still to come, by their numbers; the end of file repeats. -/
def lexeme (r : Reader) (i : Nat) : Lexeme := r.upcoming[i]?.getD (.ok r.last)

/-- The lexemes from a number on. -/
def skip (n : Nat) (lexemes : Nat → Lexeme) : Nat → Lexeme := fun i => lexemes (n + i)

theorem next_eq (r : Reader) : r.next.1 = r.lexeme 0 ∧ r.next.2.lexeme = skip 1 r.lexeme := by
  obtain ⟨pending, ahead, last⟩ := r
  cases ahead with
  | some t =>
      refine ⟨rfl, funext fun i => ?_⟩
      simp [next, lexeme, upcoming, skip, Nat.add_comm 1 i]
  | none =>
      cases pending with
      | nil => exact ⟨rfl, rfl⟩
      | cons x xs =>
          refine ⟨rfl, funext fun i => ?_⟩
          simp [next, lexeme, upcoming, skip, Nat.add_comm 1 i]

theorem peek_eq (r : Reader) :
    r.peek.1 = r.lexeme 0 ∧
      r.peek.2.lexeme = if (r.lexeme 0).isOk then r.lexeme else skip 1 r.lexeme := by
  obtain ⟨pending, ahead, last⟩ := r
  cases ahead with
  | some t => exact ⟨rfl, rfl⟩
  | none =>
      cases pending with
      | nil =>
          -- the end of file is kept, but it would come again anyway
          refine ⟨rfl, funext fun i => ?_⟩
          cases i <;> rfl
      | cons x xs =>
          cases x with
          | ok t => exact ⟨rfl, rfl⟩
          | error b => exact next_eq ⟨.error b :: xs, none, last⟩

/-- What is still to come after a call that is answered by the first of the given lexemes. -/
def Call.rest (c : Call) (lexemes : Nat → Lexeme) : Nat → Lexeme :=
  if c.takes (lexemes 0) then skip 1 lexemes else lexemes

/-- **One call**: it is answered by the first lexeme to come, and takes it or not. -/
theorem ask_eq (r : Reader) (c : Call) :
    (r.ask c).1 = r.lexeme 0 ∧ (r.ask c).2.lexeme = c.rest r.lexeme := by
  cases c with
  | next => exact next_eq r
  | peek =>
      obtain ⟨hanswer, hrest⟩ := peek_eq r
      refine ⟨hanswer, hrest.trans ?_⟩
      unfold Call.rest Call.takes
      cases r.lexeme 0 <;> rfl

/-- The answers to calls, by the lexemes to come. -/
def answers : (Nat → Lexeme) → List Call → List (Call × Lexeme)
  | _, [] => []
  | lexemes, c :: cs => (c, lexemes 0) :: answers (c.rest lexemes) cs

/-- **A run is answered by the lexemes to come**, whatever the reader keeps. -/
theorem run_eq (r : Reader) (cs : List Call) : r.run cs = answers r.lexeme cs := by
  induction cs generalizing r with
  | nil => rfl
  | cons c cs ih =>
      obtain ⟨hanswer, hrest⟩ := ask_eq r c
      rw [run, answers, ih, hanswer, hrest]

/-! ## Runs by the lexemes to come -/

section Answers

variable {lexemes : Nat → Lexeme}

theorem skip_skip (m n : Nat) : skip m (skip n lexemes) = skip (n + m) lexemes := by
  funext i
  simp only [skip, Nat.add_assoc]

theorem skip_zero : skip 0 lexemes = lexemes := by
  funext i
  exact congrArg lexemes (Nat.zero_add i)

/-- The first lexemes are the very first and those after it. -/
theorem first_succ (n : Nat) :
    (List.range (n + 1)).map lexemes = lexemes 0 :: (List.range n).map (skip 1 lexemes) := by
  rw [List.range_succ_eq_map, List.map_cons, List.map_map]
  refine congrArg (lexemes 0 :: ·) (List.map_congr_left fun i _ => ?_)
  exact congrArg lexemes (Nat.add_comm i 1)

theorem map_fst_answers (lexemes : Nat → Lexeme) (cs : List Call) :
    (answers lexemes cs).map Prod.fst = cs := by
  induction cs generalizing lexemes with
  | nil => rfl
  | cons c cs ih => rw [answers, List.map_cons, ih]

/-- What is still to come after a call, by the number of answers that it takes. -/
theorem Call.rest_eq (c : Call) : c.rest lexemes = skip (taken [(c, lexemes 0)]).length lexemes := by
  unfold Call.rest taken
  cases htakes : c.takes (lexemes 0) with
  | true => simp [htakes]
  | false => simp [htakes, skip_zero]

theorem Call.rest_token (h : (lexemes 0).isOk = true) : Call.rest .peek lexemes = lexemes := by
  simp [Call.rest, Call.takes, h]

theorem Call.rest_bad {b : BadText} (h : lexemes 0 = .error b) :
    Call.rest .peek lexemes = skip 1 lexemes := by
  simp [Call.rest, Call.takes, h, Except.isOk, Except.toBool]

theorem taken_cons (x : Call × Lexeme) (xs : List (Call × Lexeme)) :
    taken (x :: xs) = taken [x] ++ taken xs := by
  rw [taken, taken, taken, ← List.map_append, ← List.filter_append, List.singleton_append]

/-- Later calls are answered by what earlier ones have not taken. -/
theorem answers_append (cs ds : List Call) :
    answers lexemes (cs ++ ds) =
      answers lexemes cs ++ answers (skip (taken (answers lexemes cs)).length lexemes) ds := by
  induction cs generalizing lexemes with
  | nil => rw [answers, List.nil_append, List.nil_append, taken, List.filter_nil, List.map_nil,
      List.length_nil, skip_zero]
  | cons c cs ih =>
      rw [List.cons_append, answers, answers, ih, taken_cons, List.length_append, c.rest_eq, skip_skip]
      rfl

/-- A run that is cut in two: the second part starts with what the first has not taken. -/
theorem answers_of_append {cs : List Call} {us vs : List (Call × Lexeme)}
    (h : answers lexemes cs = us ++ vs) :
    us = answers lexemes (us.map Prod.fst) ∧
      vs = answers (skip (taken us).length lexemes) (vs.map Prod.fst) := by
  have hcalls : cs = us.map Prod.fst ++ vs.map Prod.fst := by
    rw [← map_fst_answers lexemes cs, h, List.map_append]
  rw [hcalls, answers_append] at h
  have hlength : (answers lexemes (us.map Prod.fst)).length = us.length := by
    rw [← List.length_map (f := Prod.fst), map_fst_answers, List.length_map]
  obtain ⟨hus, hvs⟩ := List.append_inj h hlength
  rw [hus] at hvs
  exact ⟨hus.symm, hvs.symm⟩

/-- All answers are lexemes that were to come. -/
theorem exists_of_mem_answers {cs : List Call} {x : Call × Lexeme} (h : x ∈ answers lexemes cs) :
    ∃ i, x.2 = lexemes i := by
  obtain ⟨us, vs, hcut⟩ := List.append_of_mem h
  have hfirst := (List.cons_eq_cons.mp (answers_of_append hcut).2).1
  exact ⟨_, congrArg Prod.snd hfirst⟩

/-- **What is taken is what was to come**, one lexeme after the other. -/
theorem taken_answers (cs : List Call) :
    taken (answers lexemes cs) = (List.range (taken (answers lexemes cs)).length).map lexemes := by
  induction cs generalizing lexemes with
  | nil => rfl
  | cons c cs ih =>
      rw [answers, taken_cons, ih, c.rest_eq]
      cases htakes : c.takes (lexemes 0) with
      | false => simp [taken, htakes, skip_zero]
      | true =>
          have hone : taken [(c, lexemes 0)] = [lexemes 0] := by simp [taken, htakes]
          rw [hone, List.length_append, List.length_map, List.length_range, List.length_singleton,
            Nat.add_comm, first_succ]
          rfl

/-- Bad text comes once. -/
def BadOnce (lexemes : Nat → Lexeme) : Prop :=
  ∀ i j b, i < j → lexemes i = .error b → lexemes j ≠ .error b

theorem BadOnce.skip (h : BadOnce lexemes) (n : Nat) : BadOnce (skip n lexemes) :=
  fun i j b hij hi => h (n + i) (n + j) b (Nat.add_lt_add_left hij n) hi

/-- Looks at a token take nothing. -/
theorem taken_looks {cs : List Call} (hcs : ∀ c ∈ cs, c = .peek) (hfirst : (lexemes 0).isOk = true) :
    taken (answers lexemes cs) = [] := by
  induction cs with
  | nil => rfl
  | cons c cs ih =>
      obtain ⟨rfl, hrest⟩ := List.forall_mem_cons.mp hcs
      rw [answers, taken_cons, Call.rest_token hfirst, ih hrest]
      simp [taken, Call.takes, hfirst]

/-- **A look shows what is handed out next exactly if it shows a token.** -/
theorem shown_iff (hbad : BadOnce lexemes) {cs : List Call} {us vs ws : List (Call × Lexeme)}
    {x y : Lexeme} (h : answers lexemes cs = us ++ (.peek, x) :: (vs ++ (.next, y) :: ws))
    (hvs : ∀ z ∈ vs, z.1 = .peek) : x = y ↔ x.isOk = true := by
  -- from the look on, the run starts with what was not taken before
  have hlook := (answers_of_append h).2
  generalize skip (taken us).length lexemes = later, hbad.skip (taken us).length = hlater at hlook
  obtain ⟨hx, hrest⟩ := List.cons_eq_cons.mp hlook
  obtain rfl : x = later 0 := congrArg Prod.snd hx
  obtain ⟨hlooks, hnext⟩ := answers_of_append hrest.symm
  have hy : y = skip (taken vs).length (Call.rest .peek later) 0 :=
    congrArg Prod.snd (List.cons_eq_cons.mp hnext).1
  cases hfirst : later 0 with
  | ok t =>
      have hok : (later 0).isOk = true := by rw [hfirst]; rfl
      have hnone : taken vs = [] := by
        rw [hlooks, Call.rest_token hok]
        exact taken_looks (by simpa using hvs) hok
      rw [hy, Call.rest_token hok, hnone, List.length_nil, skip_zero, hfirst]
      exact ⟨fun _ => rfl, fun _ => rfl⟩
  | error b =>
      rw [Call.rest_bad hfirst, skip_skip] at hy
      refine ⟨fun heq => ?_, fun hok => by cases hok⟩
      exact absurd (hy.symm.trans heq.symm) (hlater 0 _ b (by omega) hfirst)

end Answers

/-! ## Leaving looks out -/

theorem undisturbed_cons {x : Call × Lexeme} {xs : List (Call × Lexeme)} :
    Undisturbed (x :: xs) ↔
      (∀ b, x = (.peek, .error b) → ∀ y ∈ xs, y.1 = .peek) ∧ Undisturbed xs := by
  constructor
  · intro h
    refine ⟨fun b hb => h [] b xs (by rw [hb]; rfl), fun us b vs hxs => h (x :: us) b vs ?_⟩
    rw [hxs]
    rfl
  · rintro ⟨hx, hxs⟩ us b vs hcut
    cases us with
    | nil =>
        obtain ⟨rfl, rfl⟩ := List.cons_eq_cons.mp hcut
        exact hx b rfl
    | cons u us =>
        obtain ⟨rfl, rfl⟩ := List.cons_eq_cons.mp hcut
        exact hxs us b vs rfl

theorem handed_next (x : Lexeme) (xs : List (Call × Lexeme)) :
    handed ((.next, x) :: xs) = x :: handed xs := rfl

theorem handed_peek (x : Lexeme) (xs : List (Call × Lexeme)) :
    handed ((.peek, x) :: xs) = handed xs := rfl

theorem handed_looks {xs : List (Call × Lexeme)} (h : ∀ x ∈ xs, x.1 = .peek) : handed xs = [] := by
  have hnone : (xs.filter fun x => x.1 = .next) = [] := by
    rw [List.filter_eq_nil_iff]
    intro x hx
    simp [h x hx]
  rw [handed, hnone, List.map_nil]

theorem Undisturbed.of_looks {xs : List (Call × Lexeme)} (h : ∀ x ∈ xs, x.1 = .peek) :
    Undisturbed xs := by
  intro us b vs hcut x hx
  exact h x (by rw [hcut]; exact List.mem_append_right _ (List.mem_cons_of_mem _ hx))

theorem forall_looks (lexemes : Nat → Lexeme) (cs : List Call) :
    (∀ x ∈ answers lexemes cs, x.1 = .peek) ↔ ∀ c ∈ cs, c = .peek := by
  conv_rhs => rw [← map_fst_answers lexemes cs]
  rw [List.forall_mem_map]

/-- Behind bad text that a look has taken, other lexemes are handed out than without the look. -/
theorem handed_behind {lexemes : Nat → Lexeme} (hbad : BadOnce lexemes) {b : BadText}
    (hfirst : lexemes 0 = .error b) (cs : List Call) :
    handed (answers (skip 1 lexemes) cs) = handed (answers lexemes (cs.filter (· = .next))) ↔
      ∀ c ∈ cs, c = .peek := by
  constructor
  · intro heq c hc
    cases c with
    | peek => rfl
    | next =>
        -- without the look the bad text is handed out, and behind it it never comes again
        have hmem : Call.next ∈ cs.filter (· = .next) := by simpa using hc
        obtain ⟨d, ds, hcs⟩ := List.exists_cons_of_ne_nil (List.ne_nil_of_mem hmem)
        have hd : d = .next := by
          have hd : d ∈ cs.filter (· = .next) := by rw [hcs]; exact List.mem_cons_self
          simpa using (List.mem_filter.mp hd).2
        have hhanded : lexemes 0 ∈ handed (answers (skip 1 lexemes) cs) := by
          rw [heq, hcs, hd, answers, handed_next]
          exact List.mem_cons_self
        obtain ⟨x, hx, hx'⟩ := List.mem_map.mp hhanded
        obtain ⟨i, hi⟩ := exists_of_mem_answers (List.mem_filter.mp hx).1
        exact absurd (hi.symm.trans (hx'.trans hfirst)) (hbad 0 (1 + i) b (by omega) hfirst)
  · intro hcs
    have hnone : cs.filter (· = .next) = [] := by
      rw [List.filter_eq_nil_iff]
      intro c hc
      simp [hcs c hc]
    rw [hnone, handed_looks ((forall_looks _ cs).mpr hcs)]
    rfl

/-- Leaving looks out of a run changes nothing about what is handed out, unless one met bad text. -/
theorem handed_answers {lexemes : Nat → Lexeme} (hbad : BadOnce lexemes) (cs : List Call) :
    handed (answers lexemes cs) = handed (answers lexemes (cs.filter (· = .next))) ↔
      Undisturbed (answers lexemes cs) := by
  induction cs generalizing lexemes with
  | nil => exact ⟨fun _ us b vs h => by simp [answers] at h, fun _ => rfl⟩
  | cons c cs ih =>
      rw [answers, undisturbed_cons]
      cases c with
      | next =>
          -- both runs take the first lexeme
          have hfilter : (Call.next :: cs).filter (· = .next) = .next :: cs.filter (· = .next) := rfl
          rw [hfilter, answers, handed_next, handed_next, List.cons_inj_right]
          refine (ih (hbad.skip 1)).trans ⟨fun h => ⟨fun b hb => ?_, h⟩, fun h => h.2⟩
          cases hb
      | peek =>
          have hfilter : (Call.peek :: cs).filter (· = .next) = cs.filter (· = .next) := rfl
          rw [hfilter, handed_peek]
          cases hfirst : lexemes 0 with
          | ok t =>
              rw [Call.rest_token (by rw [hfirst]; rfl)]
              refine (ih hbad).trans ⟨fun h => ⟨fun b hb => ?_, h⟩, fun h => h.2⟩
              cases hb
          | error b =>
              rw [Call.rest_bad hfirst, handed_behind hbad hfirst, ← forall_looks (skip 1 lexemes)]
              exact ⟨fun h => ⟨fun _ _ => h, .of_looks h⟩, fun h => h.1 b rfl⟩

/-! ## Scripts -/

theorem calls_eq (r : Reader) (n : Nat) : r.calls n = (List.range n).map r.lexeme := by
  induction n generalizing r with
  | zero => rfl
  | succ n ih =>
      obtain ⟨hanswer, hrest⟩ := next_eq r
      rw [calls, ih, hanswer, hrest, first_succ]

/-- The lexemes of a script have different places, so bad text comes once. -/
theorem badOnce_ofSource (source : String) : BadOnce (ofSource source).lexeme := by
  have htiles : Tiles [] source.toList (Lexeme.scan source) := Lexeme.scanFrom_tiles (Nat.le_refl _)
  have hordered : (Lexeme.scan source).Pairwise fun x y => x.span.stop ≤ y.span.start :=
    (Lexeme.scanFrom_ordered _ _ _).2
  have hentry : ∀ i b, (ofSource source).lexeme i = .error b →
      (Lexeme.scan source)[i]? = some (.error b) := by
    intro i b hi
    have hupcoming : (ofSource source).upcoming = Lexeme.scan source := rfl
    rw [lexeme, hupcoming] at hi
    cases hx : (Lexeme.scan source)[i]? with
    | none => rw [hx] at hi; cases hi
    | some x => rw [hx] at hi; exact congrArg some hi
  intro i j b hij hi hj
  obtain ⟨hlt, hi⟩ := List.getElem?_eq_some_iff.mp (hentry i b hi)
  obtain ⟨hlt', hj⟩ := List.getElem?_eq_some_iff.mp (hentry j b hj)
  have hafter := List.pairwise_iff_getElem.mp hordered i j hlt hlt' hij
  rw [hi, hj] at hafter
  -- but no lexeme is empty
  obtain ⟨before, text, after, hne, hholds, _⟩ := htiles.lexemes rfl _ (hi ▸ List.getElem_mem hlt)
  have hpositive := hholds.start_lt_stop hne
  omega

/--
**Looks that show tokens are not noticed.** In every run of calls on a script, leaving all looks out changes
nothing about the lexemes handed out exactly if no look that is followed by a call for a lexeme has met bad
text. A look shows what the following call for a lexeme hands out exactly if it shows a token. And
whatever is called for, the answers that are not looks at tokens are the lexemes of the script in their
order, so that bad text which a look has met is never reported again.
-/
theorem looks_unnoticed (source : String) (cs : List Call) :
    let r := ofSource source
    (handed (r.run cs) = handed (r.run (cs.filter (· = .next))) ↔ Undisturbed (r.run cs)) ∧
      (∀ us x vs y ws, r.run cs = us ++ (.peek, x) :: (vs ++ (.next, y) :: ws) →
        (∀ z ∈ vs, z.1 = .peek) → (x = y ↔ x.isOk = true)) ∧
      taken (r.run cs) = r.calls (taken (r.run cs)).length := by
  intro r
  have hbad : BadOnce r.lexeme := badOnce_ofSource source
  simp only [run_eq]
  refine ⟨handed_answers hbad cs, fun us x vs y ws h hvs => shown_iff hbad h hvs, ?_⟩
  rw [calls_eq]
  exact taken_answers cs

/-- Bad text that a look has met is not handed out any more, and the look did not show what is. -/
theorem look_noticed :
    let r := ofSource "@ a"
    handed (r.run [.peek, .next]) ≠ handed (r.run [.next]) ∧
      (r.run [.peek, .next]).map Prod.snd =
        [.error ⟨⟨0, 1⟩, "@"⟩, .ok ⟨.name "a", ⟨2, 3⟩⟩] := by
  decide +kernel

end Reader

end Jaf
