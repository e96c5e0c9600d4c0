import Jaf.Proofs.Parser.FeedSimulation

/-!
# Parsing sees the tokens of a script and nothing else

A parser reads a script through a `Reader`, which scans as it goes and keeps a token that was looked at.
Here the plain list of tokens is made a feed too, one that looks ahead without changing. If scanning the
whole script gives tokens, the list mirrors the reader, so parsing the script is parsing the list. If it meets bad text, the reader keeps in step with itself up to there; the tokens before bad text
end before it and none is the end of file, which is the only place where a script can end.
-/

namespace Jaf

/-! ## What scanning hands out -/

/-- The place of a token or of bad text. -/
def Lexeme.span : Lexeme → Span
  | .ok t => t.span
  | .error b => b.span

namespace Cut

theorem word_ne_eof (cs : List Char) (n : Nat) : Cut.word cs ≠ .token .eof n := by
  unfold Cut.word
  extract_lets
  split
  · intro h; cases h
  · intro h; cases h

theorem number_ne_eof (cs : List Char) (n : Nat) : Cut.number cs ≠ .token .eof n := by
  unfold Cut.number Cut.keep
  split
  · intro h; cases h
  · extract_lets
    split
    · intro h; cases h
    · split
      · intro h; cases h
      · intro h; cases h

theorem symbol_ne_eof (cs : List Char) (n : Nat) : Cut.symbol cs ≠ .token .eof n := by
  unfold Cut.symbol
  split <;> intro h <;> cases h

/-- No text is cut into the end of file. -/
theorem ofChars_ne_eof (cs : List Char) (n : Nat) : Cut.ofChars cs ≠ .token .eof n := by
  unfold Cut.ofChars
  split
  · intro h; cases h
  · split
    · intro h; cases h
    · intro h; cases h
  · split
    · intro h; cases h
    · intro h; cases h
  · split
    · exact number_ne_eof _ n
    · exact symbol_ne_eof _ n
  · split
    · intro h; cases h
    · split
      · exact word_ne_eof _ n
      · split
        · exact number_ne_eof _ n
        · exact symbol_ne_eof _ n
  · intro h; cases h

end Cut

namespace Lexeme

/-- What a cut of a text leaves behind: nothing, a token, or bad text, and then what the rest gives. -/
theorem scanFrom_cons (fuel start : Nat) (c : Char) (cs : List Char) :
    ∃ stop rest, start ≤ stop ∧
      (scanFrom (fuel + 1) start (c :: cs) = scanFrom fuel stop rest ∨
        ∃ x : Lexeme, x.span = ⟨start, stop⟩ ∧ (∀ t, x = .ok t → t.kind ≠ .eof) ∧
          scanFrom (fuel + 1) start (c :: cs) = x :: scanFrom fuel stop rest) := by
  refine ⟨start + byteLength ((c :: cs).take (Cut.ofChars (c :: cs)).length),
    (c :: cs).drop (Cut.ofChars (c :: cs)).length, Nat.le_add_right _ _, ?_⟩
  have hne := Cut.ofChars_ne_eof (c :: cs)
  rw [scanFrom]
  cases hcut : Cut.ofChars (c :: cs) with
  | gap n => exact .inl rfl
  | token kind n =>
      refine .inr ⟨_, rfl, ?_, rfl⟩
      intro t ht
      cases ht
      intro heof
      rw [hcut] at hne
      exact hne n (congrArg (Cut.token · n) heof)
  | bad n =>
      refine .inr ⟨.error ⟨⟨start, _⟩, _⟩, rfl, ?_, rfl⟩
      intro t ht
      cases ht

/-- Lexemes follow one another in the text. -/
theorem scanFrom_ordered (fuel start : Nat) (cs : List Char) :
    (∀ x ∈ scanFrom fuel start cs, start ≤ x.span.start) ∧
      (scanFrom fuel start cs).Pairwise fun x y => x.span.stop ≤ y.span.start := by
  induction fuel generalizing start cs with
  | zero => simp [scanFrom]
  | succ fuel ih =>
      cases cs with
      | nil => simp [scanFrom]
      | cons c cs =>
          obtain ⟨stop, rest, hstop, h | ⟨x, hx, _, h⟩⟩ := scanFrom_cons fuel start c cs
          · rw [h]
            obtain ⟨hstart, hpairs⟩ := ih stop rest
            exact ⟨fun y hy => Nat.le_trans hstop (hstart y hy), hpairs⟩
          · rw [h]
            obtain ⟨hstart, hpairs⟩ := ih stop rest
            refine ⟨?_, ?_⟩
            · intro y hy
              rcases List.mem_cons.mp hy with rfl | hy
              · exact Nat.le_of_eq (congrArg Span.start hx).symm
              · exact Nat.le_trans hstop (hstart y hy)
            · refine List.pairwise_cons.mpr ⟨?_, hpairs⟩
              rw [hx]
              exact hstart

/-- Scanning hands out no end of file. -/
theorem scanFrom_ne_eof (fuel start : Nat) (cs : List Char) {t : Token}
    (h : .ok t ∈ scanFrom fuel start cs) : t.kind ≠ .eof := by
  induction fuel generalizing start cs with
  | zero => simp [scanFrom] at h
  | succ fuel ih =>
      cases cs with
      | nil => simp [scanFrom] at h
      | cons c cs =>
          obtain ⟨stop, rest, _, hscan | ⟨x, _, hx, hscan⟩⟩ := scanFrom_cons fuel start c cs
          · rw [hscan] at h
            exact ih stop rest h
          · rw [hscan] at h
            rcases List.mem_cons.mp h with h | h
            · exact hx t h.symm
            · exact ih stop rest h

theorem mapM_id_eq_ok {xs : List Lexeme} {ts : List Token} (h : xs.mapM id = .ok ts) :
    xs = ts.map .ok := by
  induction xs generalizing ts with
  | nil => cases h; rfl
  | cons x xs ih =>
      rw [List.mapM_cons] at h
      cases x with
      | error b => cases h
      | ok t =>
          cases hxs : xs.mapM id with
          | error b => simp only [id, hxs] at h; cases h
          | ok us =>
              simp only [id, hxs] at h
              cases h
              rw [ih hxs]
              rfl

theorem mapM_id_eq_error {xs : List Lexeme} {bad : BadText} (h : xs.mapM id = .error bad) :
    ∃ (us : List Token) (rest : List Lexeme), xs = us.map .ok ++ .error bad :: rest := by
  induction xs with
  | nil => cases h
  | cons x xs ih =>
      rw [List.mapM_cons] at h
      cases x with
      | error b => cases h; exact ⟨[], xs, rfl⟩
      | ok t =>
          cases hxs : xs.mapM id with
          | ok us => simp only [id, hxs] at h; cases h
          | error b =>
              simp only [id, hxs] at h
              cases h
              obtain ⟨us, rest, hrest⟩ := ih hxs
              exact ⟨t :: us, rest, by rw [hrest]; rfl⟩

/-- If all of a script is tokens, they are what scanning hands out, with the end of file behind. -/
theorem tokens_eq_ok {source : String} {ts : List Token} (h : tokens source = .ok ts) :
    ∃ us : List Token, scan source = us.map .ok ∧ ts = us ++ [last source] := by
  have hstream : scan source ++ [.ok (last source)] = ts.map .ok := mapM_id_eq_ok h
  obtain ⟨us, vs, rfl, hus, hvs⟩ := List.map_eq_append_iff.mp hstream.symm
  obtain ⟨v, rfl, hv⟩ := List.map_eq_singleton_iff.mp hvs
  cases hv
  exact ⟨us, hus.symm, rfl⟩

/-- If not, the bad text that is reported is the first thing that is no token. -/
theorem tokens_eq_error {source : String} {bad : BadText} (h : tokens source = .error bad) :
    ∃ (us : List Token) (rest : List Lexeme), scan source = us.map .ok ++ .error bad :: rest := by
  obtain ⟨us, rest, hstream⟩ := mapM_id_eq_error h
  -- the end of file is no bad text, so the bad text was scanned
  rcases List.eq_nil_or_concat rest with rfl | ⟨rest, x, rfl⟩
  · have hlast := congrArg List.getLast? hstream
    simp [stream] at hlast
  · have hsplit : scan source ++ [.ok (last source)] = (us.map .ok ++ .error bad :: rest) ++ [x] := by
      simpa [stream] using hstream
    exact ⟨us, rest, (List.append_inj' hsplit rfl).1⟩

end Lexeme

/-! ## A list of tokens as a feed -/

/-- Taking tokens off a list. The last one, which is the end of file, stays. -/
def Token.next : List Token → Token × List Token
  | t :: u :: ts => (t, u :: ts)
  | [t] => (t, [t])
  | [] => (⟨.eof, .point 0⟩, [])

/-- Parsers can read from a list of tokens; looking ahead leaves it as it is. -/
instance : Feed (List Token) where
  next ts := (.ok (Token.next ts).1, (Token.next ts).2)
  peek ts := (.ok (Token.next ts).1, ts)
  left ts := ts.length

theorem Token.next_cons (t last : Token) (us : List Token) :
    Token.next (t :: (us ++ [last])) = (t, us ++ [last]) := by
  cases us <;> rfl

/-! ## A reader that meets no bad text -/

/-- The reader will hand out the tokens of the list, the last of them for ever. -/
inductive Reader.Shows : Reader → List Token → Prop
  | fresh {us : List Token} {last : Token} : (∀ u ∈ us, u ≠ last) →
      Shows ⟨us.map .ok, none, last⟩ (us ++ [last])
  | ahead {t : Token} {us : List Token} {last : Token} : t ≠ last → (∀ u ∈ us, u ≠ last) →
      Shows ⟨us.map .ok, some t, last⟩ (t :: (us ++ [last]))
  | ended {last : Token} : Shows ⟨[], some last, last⟩ [last]

namespace Reader.Shows

theorem left {r : Reader} {ts : List Token} (h : r.Shows ts) : r.left = ts.length := by
  cases h with
  | fresh => simp [Reader.left]
  | ahead ht => simp [Reader.left, ht]
  | ended => simp [Reader.left]

theorem next {r : Reader} {ts : List Token} (h : r.Shows ts) :
    ∃ r', r.next = (.ok (Token.next ts).1, r') ∧ r'.Shows (Token.next ts).2 := by
  cases h with
  | @fresh us last hus =>
      cases us with
      | nil => exact ⟨_, rfl, .fresh hus⟩
      | cons u us =>
          rw [List.cons_append, Token.next_cons]
          exact ⟨_, rfl, .fresh fun v hv => hus v (List.mem_cons_of_mem _ hv)⟩
  | @ahead t us last _ hus =>
      rw [Token.next_cons]
      exact ⟨_, rfl, .fresh hus⟩
  | @ended last =>
      have hnone : ∀ u ∈ ([] : List Token), u ≠ last := by simp
      exact ⟨_, rfl, .fresh hnone⟩

theorem peek {r : Reader} {ts : List Token} (h : r.Shows ts) :
    ∃ r', r.peek = (.ok (Token.next ts).1, r') ∧ r'.Shows ts := by
  cases h with
  | @fresh us last hus =>
      cases us with
      | nil => exact ⟨_, rfl, .ended⟩
      | cons u us =>
          obtain ⟨hu, hus⟩ := List.forall_mem_cons.mp hus
          rw [List.cons_append, Token.next_cons]
          exact ⟨_, rfl, .ahead hu hus⟩
  | @ahead t us last ht hus =>
      rw [Token.next_cons]
      exact ⟨_, rfl, .ahead ht hus⟩
  | @ended last => exact ⟨_, rfl, .ended⟩

end Reader.Shows

/-- A reader is mirrored by the list of its tokens. -/
def Reader.mirror : Mirror Reader (List Token) where
  toRelocation := .same
  InStep := Reader.Shows
  Current _ := True
  Bad _ := False
  left h := h.left
  next h := by
    obtain ⟨r, hr, hshows⟩ := h.next
    exact .inl ⟨_, r, _, hr, rfl, trivial, hshows⟩
  peek h := by
    obtain ⟨r, hr, hshows⟩ := h.peek
    exact .inl ⟨_, r, _, hr, rfl, hshows⟩

/-! ## A reader that meets bad text -/

/-- A token that stands before bad text. -/
structure Token.Before (bad : BadText) (t : Token) : Prop where
  kind : t.kind ≠ .eof
  stop : t.span.stop ≤ bad.span.start

namespace Reader

/-- What the reader will hand out before the end of file. -/
def upcoming (r : Reader) : List Lexeme := r.ahead.toList.map .ok ++ r.pending

/-- The reader will hand out tokens that stand before the bad text, and then the bad text. -/
def Faces (bad : BadText) (r : Reader) : Prop :=
  ∃ (us : List Token) (rest : List Lexeme), r.upcoming = us.map .ok ++ .error bad :: rest ∧
    ∀ u ∈ us, u.Before bad

theorem next_of_upcoming {r : Reader} {x : Lexeme} {rest : List Lexeme} (h : r.upcoming = x :: rest) :
    ∃ r', r.next = (x, r') ∧ r'.ahead = none ∧ r'.upcoming = rest := by
  obtain ⟨pending, ahead, last⟩ := r
  cases ahead with
  | none =>
      have hpending : pending = x :: rest := h
      subst hpending
      exact ⟨_, rfl, rfl, rfl⟩
  | some t =>
      cases h
      exact ⟨_, rfl, rfl, rfl⟩

theorem Faces.next {bad : BadText} {r : Reader} (h : r.Faces bad) :
    (∃ t r', r.next = (.ok t, r') ∧ r'.ahead = none ∧ t.Before bad ∧ r'.Faces bad) ∨
      ∃ r', r.next = (.error bad, r') := by
  obtain ⟨us, rest, hr, hus⟩ := h
  cases us with
  | nil =>
      obtain ⟨r', hr', _⟩ := next_of_upcoming hr
      exact .inr ⟨r', hr'⟩
  | cons u us =>
      obtain ⟨hu, hus⟩ := List.forall_mem_cons.mp hus
      obtain ⟨r', hr', hahead, hupcoming⟩ := next_of_upcoming hr
      exact .inl ⟨u, r', hr', hahead, hu, us, rest, hupcoming, hus⟩

theorem Faces.peek {bad : BadText} {r : Reader} (h : r.Faces bad) :
    (∃ t r', r.peek = (.ok t, r') ∧ r'.Faces bad) ∨ ∃ r', r.peek = (.error bad, r') := by
  rcases h.next with ⟨t, r', hr, hahead, ht, us, rest, hupcoming, hus⟩ | ⟨r', hr⟩
  · refine .inl ⟨t, { r' with ahead := some t }, by simp only [Reader.peek, hr], ?_⟩
    -- the token that was looked at is the next to come
    refine ⟨t :: us, rest, ?_, List.forall_mem_cons.mpr ⟨ht, hus⟩⟩
    rw [upcoming, hahead] at hupcoming
    exact congrArg (.ok t :: ·) hupcoming
  · exact .inr ⟨r', by simp only [Reader.peek, hr]⟩

/-- A reader mirrors itself up to bad text. -/
def mirrorBefore (bad : BadText) : Mirror Reader Reader where
  toRelocation := .same
  InStep r r' := r = r' ∧ r.Faces bad
  Current := Token.Before bad
  Bad b := b = bad
  left h := congrArg Reader.left h.1
  next h := by
    obtain ⟨rfl, h⟩ := h
    rcases h.next with ⟨t, r', hr, _, ht, h'⟩ | ⟨r', hr⟩
    · exact .inl ⟨t, r', r', hr, hr, ht, rfl, h'⟩
    · exact .inr ⟨bad, r', hr, rfl⟩
  peek h := by
    obtain ⟨rfl, h⟩ := h
    rcases h.peek with ⟨t, r', hr, h'⟩ | ⟨r', hr⟩
    · exact .inl ⟨t, r', r', hr, hr, rfl, h'⟩
    · exact .inr ⟨bad, r', hr, rfl⟩

theorem shows_ofSource {source : String} {ts : List Token} (h : Lexeme.tokens source = .ok ts) :
    (Reader.ofSource source).Shows ts := by
  obtain ⟨us, hscan, rfl⟩ := Lexeme.tokens_eq_ok h
  rw [Reader.ofSource, hscan]
  refine .fresh fun u hu heq => ?_
  have hmem : .ok u ∈ Lexeme.scan source := hscan ▸ List.mem_map_of_mem hu
  exact Lexeme.scanFrom_ne_eof _ _ _ hmem (congrArg Token.kind heq)

theorem faces_ofSource {source : String} {bad : BadText} (h : Lexeme.tokens source = .error bad) :
    (Reader.ofSource source).Faces bad := by
  obtain ⟨us, rest, hscan⟩ := Lexeme.tokens_eq_error h
  refine ⟨us, rest, hscan, fun u hu => ?_⟩
  have hmem : (.ok u : Lexeme) ∈ us.map .ok := List.mem_map_of_mem hu
  have hordered := (Lexeme.scanFrom_ordered source.toList.length 0 source.toList).2
  change (Lexeme.scan source).Pairwise _ at hordered
  rw [hscan] at hordered
  refine ⟨Lexeme.scanFrom_ne_eof source.toList.length 0 source.toList ?_, ?_⟩
  · show .ok u ∈ Lexeme.scan source
    rw [hscan]
    exact List.mem_append_left _ hmem
  · exact (List.pairwise_append.mp hordered).2.2 _ hmem _ List.mem_cons_self

end Reader

/-! ## Where a script ends -/

namespace Parser

variable {φ α β : Type}

theorem bind_eq_ok {p : Parser φ α} {f : α → Parser φ β} {s s' : Stream φ} {b : β}
    (h : (p >>= f) s = .ok (b, s')) : ∃ a t, p s = .ok (a, t) ∧ f a t = .ok (b, s') := by
  cases hp : p s with
  | error e => simp only [Bind.bind, StateT.bind, hp, Except.bind] at h; cases h
  | ok r =>
      simp only [Bind.bind, StateT.bind, hp, Except.bind] at h
      exact ⟨r.1, r.2, rfl, h⟩

/-- A loop leaves in a state in which one of its turns left it. -/
theorem loopN_eq_ok {turn : α → Parser φ (Turn α β)} {n : Nat} {a : α} {s s' : Stream φ} {b : β}
    (h : loopN turn n a s = .ok (b, s')) : ∃ a t, turn a t = .ok (.done b, s') := by
  induction n generalizing a s with
  | zero => cases h
  | succ n ih =>
      obtain ⟨r, t, hturn, hrest⟩ := bind_eq_ok h
      cases r with
      | again a' => exact ih hrest
      | done b' =>
          cases hrest
          exact ⟨a, s, hturn⟩

/-- Parsing a script succeeds only at the end of file. -/
theorem script_ends [Feed φ] {s s' : Stream φ} {b : Block} (h : script s = .ok (b, s')) :
    s'.current.kind = .eof := by
  obtain ⟨start, s₁, hstart, h⟩ := bind_eq_ok h
  obtain ⟨items, s₂, hloop, h⟩ := bind_eq_ok h
  obtain ⟨p, s₃, hprevious, h⟩ := bind_eq_ok h
  cases hprevious
  cases h
  obtain ⟨items, t, hturn⟩ := loopN_eq_ok hloop
  obtain ⟨ended, t', hat, hturn⟩ := bind_eq_ok hturn
  cases hat
  split at hturn
  · rename_i hended
    cases hturn
    exact of_decide_eq_true hended
  -- any other turn goes round again or fails
  · obtain ⟨typed, t', _, hturn⟩ := bind_eq_ok hturn
    split at hturn
    · obtain ⟨more, t'', _, hturn⟩ := bind_eq_ok hturn
      cases hturn
    · cases hturn

end Parser

theorem Block.parse_eq_run {source : String} {ts : List Token} (h : Lexeme.tokens source = .ok ts) :
    Block.parse source = Parser.script.run ts := by
  rcases Mirror.mirrors_script.run (M := Reader.mirror) rfl (Reader.shows_ofSource h) with
    ⟨_, _, hbad⟩ | ⟨place, cause, hr, hl, _⟩ | ⟨_, b, _, _, _, hr, hl⟩
  · exact hbad.elim
  · exact hr.trans hl.symm
  · exact hr.trans (hl.trans (congrArg Except.ok (Relocation.block_same b))).symm

theorem Block.parse_of_badText {source : String} {bad : BadText} (h : Lexeme.tokens source = .error bad) :
    Block.parse source = .error (.badText bad) ∨
      ∃ place cause, Block.parse source = .error (.grammar place cause) ∧ place.stop ≤ bad.span.start := by
  have hrun := Mirror.mirrors_script.run (M := Reader.mirrorBefore bad) rfl ⟨rfl, Reader.faces_ofSource h⟩
  rcases hrun with ⟨b, hr, rfl⟩ | ⟨place, cause, hr, _, t, ht, rfl⟩ | ⟨s, b, s', hs, hcurrent, _⟩
  · exact .inl hr
  · exact .inr ⟨_, cause, hr, ht.stop⟩
  -- a token before bad text is no end of file
  · exact absurd (Parser.script_ends hs) hcurrent.kind

/-! ## The main theorem -/

/--
**Parsing a script is parsing its tokens.** If the whole script scans, the parser gives what it gives on
the list of tokens. If the script has bad text, parsing fails at the first bad text or before it.
-/
theorem Block.parse_sees_tokens (source : String) :
    (∀ ts, Lexeme.tokens source = .ok ts → Block.parse source = Parser.script.run ts) ∧
      ∀ bad, Lexeme.tokens source = .error bad →
        Block.parse source = .error (.badText bad) ∨
          ∃ place cause, Block.parse source = .error (.grammar place cause) ∧
            place.stop ≤ bad.span.start := by
  exact ⟨fun ts hts => Block.parse_eq_run hts, fun bad hbad => Block.parse_of_badText hbad⟩

/-- A script that makes the parser look ahead at a `void`, a label and a cast; and one that makes it meet
bad text in doing so. -/
theorem Block.parse_sees_tokens_ahead :
    (∃ ts, Lexeme.tokens "int f(void)\x7bl:return(int)2.5;\x7d" = .ok ts ∧
        Block.parse "int f(void)\x7bl:return(int)2.5;\x7d" = Parser.script.run ts) ∧
      ∃ bad, Lexeme.tokens "int a=(@" = .error bad ∧
        (Block.parse "int a=(@" = .error (.badText bad) ∨
          ∃ place cause, Block.parse "int a=(@" = .error (.grammar place cause) ∧
            place.stop ≤ bad.span.start) := by
  have hgood : (Lexeme.tokens "int f(void)\x7bl:return(int)2.5;\x7d").isOk = true := by decide +kernel
  have hbad : (Lexeme.tokens "int a=(@").isOk = false := by decide +kernel
  refine ⟨?_, ?_⟩
  · cases hts : Lexeme.tokens "int f(void)\x7bl:return(int)2.5;\x7d" with
    | error bad => rw [hts] at hgood; cases hgood
    | ok ts => exact ⟨ts, rfl, (Block.parse_sees_tokens _).1 ts hts⟩
  · cases hts : Lexeme.tokens "int a=(@" with
    | ok ts => rw [hts] at hbad; cases hbad
    | error bad => exact ⟨bad, rfl, (Block.parse_sees_tokens _).2 bad hts⟩

end Jaf
