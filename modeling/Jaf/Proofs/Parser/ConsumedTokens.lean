import Jaf.Parser.Stream

/-!
# What a parser consumes

`Reads p ks stop good` says what a parser makes of tokens it should accept: on tokens of the kinds `ks`
with a token behind them that satisfies `stop`, it succeeds with a `good` value, and it has then consumed
these tokens and no others. What stands behind them matters, since most parsers look at that token to see
whether they have to go on; what stands behind that one does not, be it bad text.

There is one rule for each way in which parsers are put together. Loops and recursion are bounded by the
number of lexemes left, which is never less than the number of tokens that are to be read.
-/

namespace Jaf

/-! ## What a reader hands out -/

namespace Reader

/-- A reader hands out these tokens one after the other, and is the second reader then. -/
inductive Hands : Reader → List Token → Reader → Prop
  | nil (r : Reader) : Hands r [] r
  | cons {r r' r'' : Reader} {t : Token} {ts : List Token} : r.next = (.ok t, r') →
      Hands r' ts r'' → Hands r (t :: ts) r''

theorem Hands.append {r r' r'' : Reader} {ts us : List Token} (h : r.Hands ts r') (h' : r'.Hands us r'') :
    r.Hands (ts ++ us) r'' := by
  induction h with
  | nil => exact h'
  | cons hnext _ ih => exact .cons hnext (ih h')

theorem Hands.split {r r'' : Reader} {ts us : List Token} (h : r.Hands (ts ++ us) r'') :
    ∃ r', r.Hands ts r' ∧ r'.Hands us r'' := by
  induction ts generalizing r with
  | nil => exact ⟨r, .nil r, h⟩
  | cons t ts ih =>
      cases h with
      | cons hnext h =>
          obtain ⟨r', hts, hus⟩ := ih h
          exact ⟨r', .cons hnext hts, hus⟩

/-- A reader that has just handed out a token has looked at none, and its end of file is the same. -/
theorem next_ok {r r' : Reader} {t : Token} (h : r.next = (.ok t, r')) :
    r'.ahead = none ∧ r'.last = r.last := by
  obtain ⟨pending, ahead, last⟩ := r
  cases ahead with
  | some u => cases h; exact ⟨rfl, rfl⟩
  | none =>
      cases pending with
      | nil => cases h; exact ⟨rfl, rfl⟩
      | cons x xs => cases h; exact ⟨rfl, rfl⟩

theorem Hands.last {r r' : Reader} {ts : List Token} (h : r.Hands ts r') : r'.last = r.last := by
  induction h with
  | nil => rfl
  | cons hnext _ ih => rw [ih, (next_ok hnext).2]

theorem next_ahead {r : Reader} {t : Token} (h : r.ahead = none) :
    ({ r with ahead := some t } : Reader).next = (.ok t, r) := by
  obtain ⟨pending, ahead, last⟩ := r
  cases h
  rfl

/-- Looking ahead shows the next token, and changes nothing about what is handed out. -/
theorem Hands.peek {r r' : Reader} {t : Token} {ts : List Token} (h : r.Hands (t :: ts) r') :
    ∃ r₁, r.peek = (.ok t, r₁) ∧ r₁.Hands (t :: ts) r' ∧ r₁.last = r.last := by
  cases h with
  | @cons _ r₁ _ _ _ hnext h =>
      obtain ⟨hahead, hlast⟩ := next_ok hnext
      refine ⟨{ r₁ with ahead := some t }, ?_, .cons (next_ahead hahead) h, hlast⟩
      rw [Reader.peek, hnext]

/-- Handing out a token other than the end of file leaves one lexeme less. -/
theorem left_of_next {r r' : Reader} {t : Token} (h : r.next = (.ok t, r')) (ht : t ≠ r.last) :
    r.left = r'.left + 1 := by
  obtain ⟨pending, ahead, last⟩ := r
  cases ahead with
  | some u =>
      cases h
      simp [left, ht]
  | none =>
      cases pending with
      | nil => cases h; exact absurd rfl ht
      | cons x xs => cases h; rfl

/-- There are no more tokens to hand out before the end of file than lexemes left. -/
theorem Hands.length_le {r r' : Reader} {ts : List Token} (h : r.Hands ts r')
    (hts : ∀ t ∈ ts, t ≠ r.last) : ts.length ≤ r.left := by
  induction h with
  | nil => exact Nat.zero_le _
  | cons hnext _ ih =>
      obtain ⟨ht, hts⟩ := List.forall_mem_cons.mp hts
      rw [List.length_cons, left_of_next hnext ht]
      refine Nat.succ_le_succ (ih ?_)
      rwa [(next_ok hnext).2]

end Reader

/-! ## Tokens of a stream -/

/-- The stream has these tokens, the first of them current, and its reader is `r` when the last one is. -/
inductive Stream.Has : Stream Reader → List Token → Reader → Prop
  | mk {s : Stream Reader} {ts : List Token} {r : Reader} : s.feed.last.kind = .eof →
      s.feed.Hands ts r → Has s (s.current :: ts) r

/-- The stream when tokens have been consumed, with `t` current and its reader `r`. -/
def Stream.behind (s : Stream Reader) (us : List Token) (t : Token) (r : Reader) : Stream Reader :=
  ⟨t, r, us.foldl (fun _ u => u.span) s.previous, s.typeNames⟩

theorem Stream.behind_behind (s : Stream Reader) (us vs : List Token) (t u : Token) (r r' : Reader) :
    (s.behind us t r).behind vs u r' = s.behind (us ++ vs) u r' := by
  simp only [behind, List.foldl_append]

namespace Stream.Has

variable {s : Stream Reader} {t u : Token} {us ts : List Token} {r : Reader}

theorem behind_nil (h : s.Has [t] r) : s.behind [] t r = s := by
  cases h with
  | mk _ h => cases h; rfl

/-- Consuming the current token. -/
theorem advance (h : s.Has (u :: t :: ts) r) :
    ∃ r', Parser.advance s = .ok ((), s.behind [u] t r') ∧ (s.behind [u] t r').Has (t :: ts) r := by
  cases h with
  | mk hlast h =>
      cases h with
      | @cons _ r' _ _ _ hnext h =>
          refine ⟨r', ?_, ?_⟩
          · have hfeed : Feed.next s.feed = (.ok t, r') := hnext
            simp only [Parser.advance, hfeed]
            rfl
          · have hlast' : r'.last.kind = .eof := by rwa [(Reader.next_ok hnext).2]
            exact .mk hlast' h

/-- Looking ahead. -/
theorem lookahead (h : s.Has (u :: t :: ts) r) :
    ∃ r', Parser.lookahead s = .ok (t.kind, { s with feed := r' }) ∧
      ({ s with feed := r' } : Stream Reader).Has (u :: t :: ts) r := by
  cases h with
  | mk hlast h =>
      obtain ⟨r', hpeek, h, hlast'⟩ := h.peek
      refine ⟨r', ?_, ?_⟩
      · have hfeed : Feed.peek s.feed = (.ok t, r') := hpeek
        simp only [Parser.lookahead, hfeed]
      · have hkind : r'.last.kind = .eof := by rwa [hlast']
        exact .mk hkind h

/-- The tokens up to one of them, and from there on. -/
theorem split (h : s.Has (us ++ t :: ts) r) :
    ∃ r', s.Has (us ++ [t]) r' ∧ (s.behind us t r').Has (t :: ts) r := by
  cases us with
  | nil =>
      cases h with
      | mk hlast h => exact ⟨s.feed, .mk hlast (.nil _), .mk hlast h⟩
  | cons u us =>
      rw [List.append_cons] at h
      cases h with
      | mk hlast h =>
          obtain ⟨r', hus, hts⟩ := h.split
          have hlast' : r'.last.kind = .eof := by rwa [hus.last]
          exact ⟨r', .mk hlast hus, .mk hlast' hts⟩

theorem length_lt_depth (h : s.Has (us ++ [t]) r) (hus : ∀ u ∈ us, u.kind ≠ .eof) :
    us.length < Parser.depth s := by
  cases us with
  | nil => exact Nat.succ_pos _
  | cons u us =>
      cases h with
      | mk hlast h =>
          obtain ⟨r', hhands, _⟩ := h.split
          have hle : us.length ≤ s.feed.left := by
            refine hhands.length_le fun v hv heq => hus v (List.mem_cons_of_mem _ hv) ?_
            rw [heq, hlast]
          exact Nat.lt_succ_of_le (Nat.succ_le_succ hle)

end Stream.Has

/-! ## Rules for reading -/

namespace Parser

variable {α β : Type}

/--
The parser succeeds on tokens of the given kinds, none of them the end of file, if what stands behind them
is a `stop`. It consumes exactly these tokens, and its value is `good`.
-/
def Reads (p : Parser Reader α) (ks : List Token.Kind) (stop : Token.Kind → Prop) (good : α → Prop) :
    Prop :=
  ∀ (s : Stream Reader) (us : List Token) (t : Token) (r : Reader), us.map Token.kind = ks →
    (∀ u ∈ us, u.kind ≠ .eof) → stop t.kind → s.Has (us ++ [t]) r →
      ∃ v, p s = .ok (v, s.behind us t r) ∧ good v

theorem bind_of_ok {p : Parser Reader α} {f : α → Parser Reader β} {s s' : Stream Reader} {v : α}
    (h : p s = .ok (v, s')) : (p >>= f) s = f v s' := by
  show Except.bind (p s) _ = _
  rw [h]
  rfl

namespace Reads

variable {p : Parser Reader α} {f : α → Parser Reader β} {k k' : Token.Kind} {ks ks' : List Token.Kind}
  {stop stop' : Token.Kind → Prop} {good : α → Prop} {good' : β → Prop}

theorem mono {stop₁ : Token.Kind → Prop} (h : Reads p ks stop good) (himp : ∀ k, stop₁ k → stop k) :
    Reads p ks stop₁ good :=
  fun s us t r hkinds hus ht hs => h s us t r hkinds hus (himp _ ht) hs

theorem pure {v : α} (hv : good v) : Reads (pure v) [] stop good := by
  intro s us t r hkinds _ _ hs
  obtain rfl := List.map_eq_nil_iff.mp hkinds
  refine ⟨v, ?_, hv⟩
  rw [hs.behind_nil]
  rfl

/-- One parser after the other: the first has to stop where the second begins, or at the end. -/
theorem bind (h : Reads p ks stop good) (hf : ∀ v, good v → Reads (f v) ks' stop' good')
    (hstop : ∀ k, stop' k → stop (ks'.headD k)) : Reads (p >>= f) (ks ++ ks') stop' good' := by
  intro s us t r hkinds hus ht hs
  obtain ⟨us, vs, rfl, rfl, rfl⟩ := List.map_eq_append_iff.mp hkinds
  obtain ⟨hus, hvs⟩ := List.forall_mem_append.mp hus
  obtain ⟨w, ws, hw, hkind⟩ :
      ∃ w ws, vs ++ [t] = w :: ws ∧ w.kind = (vs.map Token.kind).headD t.kind := by
    cases vs with
    | nil => exact ⟨t, [], rfl, rfl⟩
    | cons v vs => exact ⟨v, vs ++ [t], rfl, rfl⟩
  rw [List.append_assoc, hw] at hs
  obtain ⟨r', hfirst, hsecond⟩ := hs.split
  have hstop' : stop w.kind := hkind ▸ hstop t.kind ht
  obtain ⟨v, hv, hgood⟩ := h s us w r' rfl hus hstop' hfirst
  rw [← hw] at hsecond
  obtain ⟨v', hv', hgood'⟩ := hf v hgood _ vs t r rfl hvs ht hsecond
  refine ⟨v', ?_, hgood'⟩
  rw [bind_of_ok hv, hv', Stream.behind_behind]

/-- A second parser that reads nothing, and so stops where the first one does. -/
theorem bind_nil (h : Reads p ks stop good) (hf : ∀ v, good v → Reads (f v) [] stop good') :
    Reads (p >>= f) ks stop good' := by
  rw [← List.append_nil ks]
  exact h.bind hf fun _ hk => hk

/-! ### Looking at tokens -/

theorem span_bind {f : Span → Parser Reader β} (h : ∀ place, Reads (f place) ks stop good') :
    Reads (span >>= f) ks stop good' := by
  intro s us t r hkinds hus ht hs
  exact h s.current.span s us t r hkinds hus ht hs

theorem previous_bind {f : Span → Parser Reader β} (h : ∀ place, Reads (f place) ks stop good') :
    Reads (previous >>= f) ks stop good' := by
  intro s us t r hkinds hus ht hs
  exact h s.previous s us t r hkinds hus ht hs

/-- The current token is the first one that is to be read, or the one behind if there is none. -/
theorem kind_bind {f : Token.Kind → Parser Reader β}
    (h : ∀ k, stop k → Reads (f (ks.headD k)) ks stop good') : Reads (kind >>= f) ks stop good' := by
  intro s us t r hkinds hus ht hs
  have hkind : s.current.kind = ks.headD t.kind := by
    cases us with
    | nil => cases hs; cases hkinds; rfl
    | cons u us => cases hs; cases hkinds; rfl
  have hread := h t.kind ht s us t r hkinds hus ht hs
  rw [← hkind] at hread
  exact hread

theorem at_then {p q : Parser Reader β} (h : Reads p (k :: ks) stop good') :
    Reads (do if ← at? k then p else q) (k :: ks) stop good' := by
  have hat : Reads (at? k) [] (· = k) (· = true) :=
    kind_bind fun _ hk' => pure (decide_eq_true hk')
  refine hat.bind (fun b hb => ?_) fun _ _ => rfl
  rwa [if_pos hb]

theorem at_else {p q : Parser Reader β} (h : Reads q ks stop good')
    (hk : ∀ k', stop k' → ks.headD k' ≠ k) : Reads (do if ← at? k then p else q) ks stop good' := by
  have hat : Reads (at? k) [] (· ≠ k) (· = false) :=
    kind_bind fun _ hk' => pure (decide_eq_false hk')
  refine hat.bind (fun b hb => ?_) hk
  rwa [if_neg (by rw [hb]; decide)]

theorem lookahead_bind {f : Token.Kind → Parser Reader β}
    (h : Reads (f k') (k :: k' :: ks) stop good') :
    Reads (lookahead >>= f) (k :: k' :: ks) stop good' := by
  intro s us t r hkinds hus ht hs
  obtain ⟨u, us, rfl, rfl, hkinds'⟩ := List.map_eq_cons_iff.mp hkinds
  obtain ⟨v, us, rfl, rfl, rfl⟩ := List.map_eq_cons_iff.mp hkinds'
  obtain ⟨r', hlook, hs'⟩ := hs.lookahead
  rw [bind_of_ok hlook]
  exact h _ _ t r rfl hus ht hs'

/-! ### Consuming tokens -/

theorem advance : Reads advance [k] stop fun _ => True := by
  intro s us t r hkinds hus ht hs
  obtain ⟨u, rfl, rfl⟩ := List.map_eq_singleton_iff.mp hkinds
  obtain ⟨r', hadvance, hs'⟩ := hs.advance
  refine ⟨(), ?_, trivial⟩
  rw [hadvance, ← hs'.behind_nil, Stream.behind_behind, List.append_nil]

theorem advance_bind {f : Unit → Parser Reader β} (h : Reads (f ()) ks stop good') :
    Reads (Parser.advance >>= f) (k :: ks) stop good' := by
  have hadvance : Reads Parser.advance [k] (fun _ => True) fun _ => True := advance
  exact hadvance.bind (fun _ _ => h) fun _ _ => trivial

theorem accept_then {p q : Parser Reader β} (h : Reads p ks stop good') :
    Reads (do if ← accept k then p else q) (k :: ks) stop good' := by
  have haccept : Reads (accept k) [k] (fun _ => True) (· = true) := by
    refine kind_bind fun _ _ => ?_
    rw [List.headD_cons, if_pos rfl]
    exact advance_bind (pure rfl)
  refine haccept.bind (fun b hb => ?_) fun _ _ => trivial
  rwa [if_pos hb]

theorem accept_else {p q : Parser Reader β} (h : Reads q ks stop good')
    (hk : ∀ k', stop k' → ks.headD k' ≠ k) :
    Reads (do if ← accept k then p else q) ks stop good' := by
  have haccept : Reads (accept k) [] (· ≠ k) (· = false) := by
    refine kind_bind fun k' hk' => ?_
    rw [List.headD_nil, if_neg hk']
    exact pure rfl
  refine haccept.bind (fun b hb => ?_) hk
  rwa [if_neg (by rw [hb]; decide)]

theorem expect_bind {f : Unit → Parser Reader β} (h : Reads (f ()) ks stop good') :
    Reads (expect k >>= f) (k :: ks) stop good' := by
  have hexpect : Reads (expect k) [k] (fun _ => True) fun _ => True := by
    refine kind_bind fun _ _ => ?_
    rw [List.headD_cons, if_pos rfl]
    exact advance
  exact hexpect.bind (fun _ _ => h) fun _ _ => trivial

theorem name_bind {text : String} {f : String → Parser Reader β} (h : Reads (f text) ks stop good') :
    Reads (name >>= f) (.name text :: ks) stop good' := by
  have hname? : Reads name? [.name text] (fun _ => True) (· = some text) :=
    kind_bind fun _ _ => advance_bind (pure rfl)
  have hname : Reads name [.name text] (fun _ => True) (· = text) := by
    refine hname?.bind (fun v hv => ?_) fun _ _ => trivial
    subst hv
    exact pure rfl
  refine hname.bind (fun v hv => ?_) fun _ _ => trivial
  subst hv
  exact h

/-! ### Repetition -/

theorem at_depth {p : Nat → Parser Reader α} (h : ∀ n, ks.length < n → Reads (p n) ks stop good) :
    Reads (fun s => p (depth s) s) ks stop good := by
  intro s us t r hkinds hus ht hs
  have hdepth : ks.length < depth s := by
    rw [← hkinds, List.length_map]
    exact hs.length_lt_depth hus
  exact h (depth s) hdepth s us t r hkinds hus ht hs

end Reads

/-- The turn goes round again, with a `good` state. -/
def Turn.Goes (good : α → Prop) : Turn α β → Prop
  | again a => good a
  | done _ => False

/-- The turn leaves, with a `good` result. -/
def Turn.Leaves (good : β → Prop) : Turn α β → Prop
  | again _ => False
  | done b => good b

/-- The loop reads tokens of the given kinds if it has more turns than there are tokens. -/
def Rounds (turn : α → Parser Reader (Turn α β)) (a : α) (ks : List Token.Kind)
    (stop : Token.Kind → Prop) (good : β → Prop) : Prop :=
  ∀ n, ks.length < n → Reads (loopN turn n a) ks stop good

namespace Rounds

variable {turn : α → Parser Reader (Turn α β)} {a : α} {ks ks' : List Token.Kind}
  {stop stop' : Token.Kind → Prop} {good : α → Prop} {good' : β → Prop}

theorem done (h : Reads (turn a) ks stop (Turn.Leaves good')) : Rounds turn a ks stop good' := by
  intro n hn
  obtain ⟨n, rfl⟩ := Nat.exists_eq_add_one_of_ne_zero (Nat.ne_zero_of_lt hn)
  refine h.bind_nil fun x hx => ?_
  cases x with
  | again a => exact hx.elim
  | done b => exact .pure hx

/-- A turn that goes round again must have consumed a token. -/
theorem again (h : Reads (turn a) ks stop (Turn.Goes good)) (hks : ks ≠ [])
    (hrest : ∀ a, good a → Rounds turn a ks' stop' good')
    (hstop : ∀ k, stop' k → stop (ks'.headD k)) : Rounds turn a (ks ++ ks') stop' good' := by
  intro n hn
  obtain ⟨n, rfl⟩ := Nat.exists_eq_add_one_of_ne_zero (Nat.ne_zero_of_lt hn)
  refine h.bind (fun x hx => ?_) hstop
  cases x with
  | again a =>
      refine hrest a hx n ?_
      have hpos := List.length_pos_iff.mpr hks
      rw [List.length_append] at hn
      omega
  | done b => exact hx.elim

theorem loop (h : Rounds turn a ks stop good') : Reads (loop turn a) ks stop good' :=
  Reads.at_depth h

/-- One turn that goes round again, and one that leaves. -/
theorem once {turn : α → Parser Reader (Turn α α)} (h : Reads (turn a) ks stop (Turn.Goes good))
    (hks : ks ≠ []) (hdone : ∀ a, good a → Reads (turn a) [] stop (Turn.Leaves good)) :
    Reads (Parser.loop turn a) ks stop good := by
  rw [← List.append_nil ks]
  exact (again h hks (fun a ha => done (hdone a ha)) fun _ hk => hk).loop

end Rounds

end Parser

end Jaf
