import Jaf.Proofs.Lexer.ScanLengths

/-!
# What a cut takes

A cut is right if it takes what the patterns of tokens ask for: a gap of blanks and comments, the longest
token that stands at the head of the text, or text that no token begins with. Going through the scanner's
families of tokens in turn shows that every cut is right. The beginning of a text tells which family can
stand there, so the longest match is only looked for within one, by taking the text apart as the scanner
measures it.
-/

namespace Jaf

open Computability

/-! ## What a cut should be -/

/-- Text that may stand between tokens, and what comes after it. A line comment goes up to a line end or
the end of the text; a block comment ends at the first place where it can. -/
inductive Gap : List Char → List Char → Prop
  | none {after : List Char} : Gap [] after
  | blank {c : Char} {text after : List Char} : c ∈ [' ', '\t', '\n', '\r', '\x0c'] →
      Gap text after → Gap (c :: text) after
  | line {body text after : List Char} : '\n' ∉ body →
      (∀ c, (text ++ after).head? = some c → c = '\n') → Gap text after →
      Gap ('/' :: '/' :: (body ++ text)) after
  | block {body text after : List Char} : ¬ ['*', '/'] <:+: body ++ ['*'] → Gap text after →
      Gap ('/' :: '*' :: (body ++ '*' :: '/' :: text)) after

namespace Spelling

/-- No token at the head of a text is longer than the given one. -/
def Longest (w cs : List Char) : Prop := ∀ v ∈ token, v <+: cs → v.length ≤ w.length

/-- No token stands at the head of a text. -/
def NoToken (cs : List Char) : Prop := ∀ v ∈ token, ¬ v <+: cs

end Spelling

open Spelling

/-- Text that is no token, and what comes after it: a block comment without an end, which takes all the
rest; a string without an end, up to a backslash that takes nothing along; or one character. -/
inductive Unreadable : List Char → List Char → Prop
  | comment {body : List Char} : ¬ ['*', '/'] <:+: body → Unreadable ('/' :: '*' :: body) []
  | string {body after : List Char} : NoToken ('"' :: (body ++ after)) → body ∈ stringPart∗ →
      (after = [] ∨ after = ['\\'] ∨ ∃ rest, after = '\\' :: '\n' :: rest) →
      Unreadable ('"' :: body) after
  | char {c : Char} {after : List Char} : NoToken (c :: after) → Unreadable [c] after

/-- A cut takes from a text what the patterns of tokens ask for. -/
inductive Cut.Right : Cut → List Char → Prop
  | gap {text after : List Char} : text ≠ [] → Gap text after → Right (.gap text.length) (text ++ after)
  | token {kind : Token.Kind} {text after : List Char} : kind.Spelled text →
      Longest text (text ++ after) → Right (.token kind text.length) (text ++ after)
  | bad {text after : List Char} : Unreadable text after → Right (.bad text.length) (text ++ after)

/-! ## Numbers -/

/-- Where a number begins, only numbers compete for the longest match, and a lone point. -/
theorem longest_number {w cs : List Char} (hcs : lead cs = .number) (hw : w ≠ [])
    (h : ∀ v ∈ number, v <+: cs → v.length ≤ w.length) : Longest w cs := by
  intro v hv hprefix
  rcases lead_of_isPrefix hprefix (token_ne_nil hv) with hlead | rfl
  · exact h v (mem_number_of_lead hv (hlead.trans hcs)) hprefix
  · exact List.length_pos_of_ne_nil hw

/-- The kinds that keep their text make a right cut of a text that fits their pattern. -/
theorem Cut.right_keep {kind : String → Token.Kind} {w rest : List Char}
    (hpayload : ∀ s, (kind s).payload? = some s) (hname : ∀ s t, kind s ≠ .name t)
    (hw : w ∈ (kind (String.ofList w)).pattern) (hlongest : Longest w (w ++ rest)) :
    Cut.Right (Cut.keep kind w.length (w ++ rest)) (w ++ rest) := by
  rw [Cut.keep, List.take_left]
  refine .token ⟨hw, ?_, ?_⟩ hlongest
  · intro text htext
    rw [hpayload] at htext
    cases htext
    rfl
  · intro text htext
    exact absurd htext (hname _ _)

theorem Cut.right_hex {cs : List Char} (hcs : lead cs = .number) {n : Nat} (h : hexDigits cs = n + 1) :
    Cut.Right (Cut.keep .hex (n + 3) cs) cs := by
  obtain ⟨x, ds, rest, rfl, hx, hmem, hlength⟩ := exists_hex (by rw [h]; exact Nat.succ_ne_zero n)
  have hn : n + 3 = ('0' :: x :: ds).length := by
    rw [h] at hlength
    simp only [List.length_cons, ← hlength]
  rw [hn]
  refine Cut.right_keep (w := '0' :: x :: ds) (fun _ => rfl) (fun _ _ => Token.Kind.noConfusion) hmem ?_
  refine longest_number hcs (List.cons_ne_nil _ _) fun v hv hprefix => ?_
  -- the mark stops the digits of the other kinds of number
  have hzero : ∀ c ∈ ['0'], c.isDigit = true := List.forall_mem_singleton.mpr rfl
  have hmark : Stops Char.isDigit (x :: (ds ++ rest)) := by
    rcases hx with rfl | rfl
    · exact .cons (by decide) _
    · exact .cons (by decide) _
  rcases hv with (hv | hv) | hv
  · have hle : v.length ≤ 1 := length_le_of_run hzero hmark (mem_int.mp hv).2 hprefix
    exact Nat.le_trans hle (Nat.succ_le_succ (Nat.zero_le _))
  · have hle := (length_le_hexDigits hv hprefix).2
    rw [List.cons_append, List.cons_append, h] at hle
    rwa [← hn]
  · exfalso
    obtain ⟨fs, t, _, _, _, u, hu⟩ | ⟨t, ht, _, u, hu⟩ := float_isPrefix hzero hmark hv hprefix
    · obtain rfl : '.' = x := (List.cons.inj hu).1
      exact absurd hx (by decide)
    · obtain ⟨y, hy, w, _, rfl⟩ := Language.mem_mul.mp ht
      obtain ⟨e, sign, es, he, _, _, rfl⟩ := mem_exponent.mp hy
      obtain rfl : e = x := (List.cons.inj hu).1
      rcases he with rfl | rfl
      · exact absurd hx (by decide)
      · exact absurd hx (by decide)

/-- A number without digits in front begins with a point. -/
theorem digits_ne_nil {ds rest : List Char} (hrest : Stops Char.isDigit rest)
    (hcs : lead (ds ++ rest) = .number) (hpoint : ∀ r, rest ≠ '.' :: r) : ds ≠ [] := by
  rintro rfl
  cases rest with
  | nil => cases hcs
  | cons c r =>
      rcases lead_eq_number hcs with hc | ⟨rfl, _⟩
      · rw [hrest c rfl] at hc
        cases hc
      · exact hpoint r rfl

section Digits

variable {ds rest : List Char} (hds : ∀ c ∈ ds, c.isDigit = true) (hrest : Stops Char.isDigit rest)
  (hcs : lead (ds ++ rest) = .number) (hhex : hexDigits (ds ++ rest) = 0)

include hds hrest hcs hhex

/-- Without a hexadecimal mark, only the floats are left to compete with the digits of a text. -/
theorem longest_decimal {w : List Char} (hw : w ≠ []) (hle : ds.length ≤ w.length)
    (hfloat : ∀ v ∈ float, v <+: ds ++ rest → v.length ≤ w.length) : Longest w (ds ++ rest) := by
  refine longest_number hcs hw fun v hv hprefix => ?_
  rcases hv with (hv | hv) | hv
  · exact Nat.le_trans (length_le_of_run hds hrest (mem_int.mp hv).2 hprefix) hle
  · exact absurd hhex (length_le_hexDigits hv hprefix).1
  · exact hfloat v hv hprefix

/-- Digits without a point or an exponent behind them are an integer. -/
theorem Cut.right_int (hpoint : ∀ r, rest ≠ '.' :: r) (hexp : exponentLength rest = 0) :
    Cut.Right (Cut.keep .int ds.length (ds ++ rest)) (ds ++ rest) := by
  have hne : ds ≠ [] := digits_ne_nil hrest hcs hpoint
  refine Cut.right_keep (fun _ => rfl) (fun _ _ => Token.Kind.noConfusion) (mem_int.mpr ⟨hne, hds⟩) ?_
  refine longest_decimal hds hrest hcs hhex hne (Nat.le_refl _) fun v hv hprefix => ?_
  exfalso
  obtain ⟨fs, t, _, _, _, u, hu⟩ | ⟨t, ht, _, hprefix'⟩ := float_isPrefix hds hrest hv hprefix
  · exact hpoint _ hu.symm
  · obtain ⟨x, hx, w, _, rfl⟩ := Language.mem_mul.mp ht
    have hle := length_le_exponentLength hx ((List.prefix_append x w).trans hprefix')
    obtain ⟨e, sign, es, _, _, _, rfl⟩ := mem_exponent.mp hx
    rw [hexp] at hle
    exact absurd hle (by simp)

/-- Digits with an exponent behind them are a float. -/
theorem Cut.right_scaled (hpoint : ∀ r, rest ≠ '.' :: r) (hexp : exponentLength rest ≠ 0) :
    Cut.Right (Cut.keep .float (ds.length + tailLength rest) (ds ++ rest)) (ds ++ rest) := by
  have hne : ds ≠ [] := digits_ne_nil hrest hcs hpoint
  obtain ⟨t, r, rfl, _, hlength, ht⟩ := exists_tail rest
  have hw : ds ++ t ≠ [] := List.append_ne_nil_of_left_ne_nil hne t
  have hmem : ds ++ t ∈ float := mem_float.mpr ⟨ds, hds, .inr ⟨t, ht hexp, hne, rfl⟩⟩
  have hlongest : Longest (ds ++ t) (ds ++ (t ++ r)) := by
    refine longest_decimal hds hrest hcs hhex hw (by simp) fun v hv hprefix => ?_
    obtain ⟨fs, t', _, _, _, u, hu⟩ | ⟨t', ht', rfl, hprefix'⟩ := float_isPrefix hds hrest hv hprefix
    · exact absurd hu.symm (hpoint _)
    · have htail : t' ∈ tail := by
        obtain ⟨x, hx, w, hw, rfl⟩ := Language.mem_mul.mp ht'
        exact Language.append_mem_mul (.inr hx) hw
      have hle := length_le_tailLength htail hprefix'
      rw [hlength] at hle
      simpa using hle
  rw [← List.append_assoc] at hlongest
  rw [hlength, ← List.length_append, ← List.append_assoc]
  exact Cut.right_keep (fun _ => rfl) (fun _ _ => Token.Kind.noConfusion) hmem hlongest

end Digits

/-- Digits with a point among them are a float. -/
theorem Cut.right_point {ds fs r : List Char} (hds : ∀ c ∈ ds, c.isDigit = true)
    (hfs : ∀ c ∈ fs, c.isDigit = true) (hr : Stops Char.isDigit r)
    (hcs : lead (ds ++ '.' :: (fs ++ r)) = .number) (hhex : hexDigits (ds ++ '.' :: (fs ++ r)) = 0) :
    Cut.Right (Cut.keep .float (ds.length + 1 + fs.length + tailLength r) (ds ++ '.' :: (fs ++ r)))
      (ds ++ '.' :: (fs ++ r)) := by
  have hrest : Stops Char.isDigit ('.' :: (fs ++ r)) := .cons (by decide) _
  have hne : ds ≠ [] ∨ fs ≠ [] := by
    by_contra h
    obtain ⟨hds', hfs'⟩ := not_or.mp h
    rw [not_not.mp hds', not_not.mp hfs'] at hcs
    rcases lead_eq_number hcs with hc | ⟨_, d, ds', rfl, hd⟩
    · exact absurd hc (by decide)
    · rw [hr d rfl] at hd
      cases hd
  obtain ⟨t, r', rfl, ht, hlength, _⟩ := exists_tail r
  have hmem : ds ++ '.' :: (fs ++ t) ∈ float := mem_float.mpr ⟨ds, hds, .inl ⟨fs, t, hfs, hne, ht, rfl⟩⟩
  have hlongest : Longest (ds ++ '.' :: (fs ++ t)) (ds ++ '.' :: (fs ++ (t ++ r'))) := by
    refine longest_decimal hds hrest hcs hhex (by simp) (by simp) fun v hv hprefix => ?_
    obtain ⟨fs', t', hfs', ht', rfl, hprefix'⟩ | ⟨t', ht', _, u, hu⟩ := float_isPrefix hds hrest hv hprefix
    · have hle := length_le_fraction hfs hr hfs' ht' ((List.prefix_cons_inj '.').mp hprefix')
      rw [hlength] at hle
      simpa using hle
    · obtain ⟨x, hx, w, _, rfl⟩ := Language.mem_mul.mp ht'
      obtain ⟨e, sign, es, he, _, _, rfl⟩ := mem_exponent.mp hx
      obtain rfl : e = '.' := (List.cons.inj hu).1
      exact absurd he (by decide)
  have hcut : ds.length + 1 + fs.length + t.length = (ds ++ '.' :: (fs ++ t)).length := by
    simp only [List.length_append, List.length_cons]
    omega
  have htext : ds ++ '.' :: (fs ++ (t ++ r')) = ds ++ '.' :: (fs ++ t) ++ r' := by simp
  rw [htext] at hlongest
  rw [hlength, hcut, htext]
  exact Cut.right_keep (fun _ => rfl) (fun _ _ => Token.Kind.noConfusion) hmem hlongest

theorem Cut.right_number {cs : List Char} (hcs : lead cs = .number) : Cut.Right (Cut.number cs) cs := by
  fun_cases Cut.number cs with
  | case1 n h => exact Cut.right_hex hcs h
  | case2 hhex n rest hdrop =>
      obtain ⟨ds, rest', rfl, hds, hrest⟩ := exists_run Char.isDigit cs
      have hn : n = ds.length := runLength_append hds hrest
      rw [hn, List.drop_left] at hdrop
      subst hdrop
      obtain ⟨fs, r, rfl, hfs, hr⟩ := exists_run Char.isDigit rest
      have hdrop : (ds ++ '.' :: (fs ++ r)).drop (ds.length + 1 + fs.length) = r := by
        have htext : ds ++ '.' :: (fs ++ r) = ds ++ '.' :: fs ++ r := by simp
        have hlength : ds.length + 1 + fs.length = (ds ++ '.' :: fs).length := by
          simp only [List.length_append, List.length_cons]
          omega
        rw [htext, hlength, List.drop_left]
      rw [floatLength_eq, runLength_append hfs hr, hn, hdrop]
      exact Cut.right_point hds hfs hr hcs hhex
  | case3 hhex n hpoint hexp =>
      obtain ⟨ds, rest, rfl, hds, hrest⟩ := exists_run Char.isDigit cs
      have hn : n = ds.length := runLength_append hds hrest
      rw [hn, List.drop_left] at hpoint hexp
      rw [hn]
      exact Cut.right_int hds hrest hcs hhex hpoint hexp
  | case4 hhex n hpoint hexp =>
      obtain ⟨ds, rest, rfl, hds, hrest⟩ := exists_run Char.isDigit cs
      have hn : n = ds.length := runLength_append hds hrest
      rw [hn, List.drop_left] at hpoint hexp
      rw [hn, floatLength_eq, List.drop_left]
      exact Cut.right_scaled hds hrest hcs hhex hpoint hexp

/-! ## Words -/

theorem Keyword.ofText?_eq_some {text : String} {k : Keyword} (h : Keyword.ofText? text = some k) :
    k.text = text := by
  have hfound := List.find?_some h
  exact of_decide_eq_true hfound

theorem Keyword.ofText?_eq_none {text : String} (h : Keyword.ofText? text = none) (k : Keyword) :
    text ≠ k.text := by
  rintro rfl
  rw [Keyword.ofText?_text] at h
  cases h

theorem isWordPart_of_isWordStart {c : Char} (h : isWordStart c = true) : isWordPart c = true := by
  unfold isWordStart at h
  unfold isWordPart Char.isAlphanum
  grind

theorem Cut.right_word {c : Char} {cs : List Char} (hc : isWordStart c = true) :
    Cut.Right (Cut.word (c :: cs)) (c :: cs) := by
  obtain ⟨ws, rest, rfl, hws, hrest⟩ := exists_run isWordPart cs
  have hall : ∀ d ∈ c :: ws, isWordPart d = true :=
    List.forall_mem_cons.mpr ⟨isWordPart_of_isWordStart hc, hws⟩
  have hrun : runLength isWordPart (c :: ws ++ rest) = (c :: ws).length := runLength_append hall hrest
  have hmem : c :: ws ∈ name := mem_name.mpr ⟨c, ws, hc, hws, rfl⟩
  have hlongest : Longest (c :: ws) (c :: ws ++ rest) := by
    intro v hv hprefix
    rcases lead_of_isPrefix hprefix (token_ne_nil hv) with hlead | rfl
    · rw [List.cons_append, lead_of_isWordStart hc] at hlead
      obtain ⟨d, ds, hd, hds, rfl⟩ := mem_name.mp (mem_name_of_lead hv hlead)
      refine length_le_of_run hall hrest ?_ hprefix
      exact List.forall_mem_cons.mpr ⟨isWordPart_of_isWordStart hd, hds⟩
    · exact Nat.succ_le_succ (Nat.zero_le _)
  rw [← List.cons_append, Cut.word, hrun, List.take_left]
  split
  · rename_i k hk
    have htext : c :: ws = k.text.toList := by
      rw [Keyword.ofText?_eq_some hk, String.toList_ofList]
    refine .token ⟨htext, ?_, ?_⟩ hlongest
    · intro text h; cases h
    · intro text h; cases h
  · rename_i hk
    refine .token ⟨hmem, ?_, ?_⟩ hlongest
    · intro text h; cases h; rfl
    · intro text h
      cases h
      exact Keyword.ofText?_eq_none hk

/-! ## Symbols -/

theorem Symbol.ofChars?_eq_some {cs : List Char} {s : Symbol} (h : Symbol.ofChars? cs = some s) :
    s.text.toList = cs := by
  have hfound := List.find?_some h
  exact of_decide_eq_true hfound

theorem Symbol.length_text_le (s : Symbol) : s.text.toList.length ≤ 3 := by cases s <;> decide

theorem Symbol.length_text_pos (s : Symbol) : 0 < s.text.toList.length := by cases s <;> decide

/-- Where a symbol begins, only symbols are tokens. -/
theorem symbol_of_isPrefix {v cs : List Char} (hcs : lead cs = .sign) (hv : v ∈ token) (h : v <+: cs) :
    ∃ s : Symbol, v = s.text.toList := by
  rcases lead_of_isPrefix h (token_ne_nil hv) with hlead | rfl
  · exact symbol_of_lead hv (hlead.trans hcs)
  · exact ⟨.dot, rfl⟩

/-- A symbol at the head of a text is found among its first characters. -/
theorem Symbol.ofChars?_take {cs : List Char} {s : Symbol} (h : s.text.toList <+: cs) :
    Symbol.ofChars? (cs.take s.text.toList.length) = some s := by
  rw [← List.prefix_iff_eq_take.mp h, Symbol.ofChars?_text]

theorem Cut.right_symbol_take {cs : List Char} {s : Symbol} {n : Nat}
    (h : Symbol.ofChars? (cs.take n) = some s)
    (hlongest : ∀ v ∈ Spelling.token, v <+: cs → v.length ≤ n) :
    Cut.Right (.token (.symbol s) s.text.length) cs := by
  have htake : s.text.toList = cs.take n := Symbol.ofChars?_eq_some h
  have hcs : cs = s.text.toList ++ cs.drop n := by rw [htake, List.take_append_drop]
  have hspelled : (Token.Kind.symbol s).Spelled s.text.toList := by
    refine ⟨rfl, ?_, ?_⟩
    · intro text h; cases h
    · intro text h; cases h
  have hcut : Longest s.text.toList cs := by
    intro v hv hprefix
    rw [htake, List.length_take]
    exact Nat.le_min.mpr ⟨hlongest v hv hprefix, hprefix.length_le⟩
  rw [hcs] at hcut ⊢
  rw [← String.length_toList]
  exact .token hspelled hcut

theorem Cut.right_symbol {cs : List Char} (hne : cs ≠ []) (hcs : lead cs = .sign) :
    Cut.Right (Cut.symbol cs) cs := by
  -- a symbol at the head of the text has at most three characters, and not one of the lengths that failed
  have hfound : ∀ v ∈ Spelling.token, v <+: cs →
      v.length ≤ 3 ∧ 0 < v.length ∧ Symbol.ofChars? (cs.take v.length) ≠ none := by
    intro v hv hprefix
    obtain ⟨s, rfl⟩ := symbol_of_isPrefix hcs hv hprefix
    refine ⟨s.length_text_le, s.length_text_pos, ?_⟩
    rw [Symbol.ofChars?_take hprefix]
    exact Option.some_ne_none s
  fun_cases Cut.symbol cs with
  | case1 s h3 => exact Cut.right_symbol_take h3 fun v hv hprefix => (hfound v hv hprefix).1
  | case2 s h2 h3 =>
      refine Cut.right_symbol_take h2 fun v hv hprefix => ?_
      obtain ⟨hle, _, hsome⟩ := hfound v hv hprefix
      have hne3 : v.length ≠ 3 := fun h => hsome (h ▸ h3)
      omega
  | case3 s h1 h2 h3 =>
      refine Cut.right_symbol_take h1 fun v hv hprefix => ?_
      obtain ⟨hle, _, hsome⟩ := hfound v hv hprefix
      have hne3 : v.length ≠ 3 := fun h => hsome (h ▸ h3)
      have hne2 : v.length ≠ 2 := fun h => hsome (h ▸ h2)
      omega
  | case4 h1 h2 h3 =>
      obtain ⟨c, cs, rfl⟩ := List.exists_cons_of_ne_nil hne
      show Cut.Right (.bad [c].length) ([c] ++ cs)
      refine .bad (.char fun v hv hprefix => ?_)
      obtain ⟨hle, hpos, hsome⟩ := hfound v hv hprefix
      have hne3 : v.length ≠ 3 := fun h => hsome (h ▸ h3)
      have hne2 : v.length ≠ 2 := fun h => hsome (h ▸ h2)
      have hne1 : v.length ≠ 1 := fun h => hsome (h ▸ h1)
      omega

/-! ## Strings and comments -/

/-- Where a quote stands, only string literals are tokens. -/
theorem string_of_isPrefix {v cs : List Char} (hv : v ∈ token) (h : v <+: '"' :: cs) : v ∈ string := by
  rcases lead_of_isPrefix h (token_ne_nil hv) with hlead | rfl
  · exact mem_string_of_lead hv (hlead.trans (lead_quote cs))
  · obtain ⟨u, hu⟩ := h
    cases hu

theorem Cut.right_string {rest : List Char} {n : Nat} (h : stringEnd rest = (true, n)) :
    Cut.Right (Cut.keep .string (n + 1) ('"' :: rest)) ('"' :: rest) := by
  obtain ⟨body, after, rfl, hbody, ⟨r, rfl, hend⟩ | ⟨_, hend⟩⟩ := exists_stringEnd rest
  · obtain rfl : body.length + 1 = n := congrArg Prod.snd (hend.symm.trans h)
    have hmem : '"' :: (body ++ ['"']) ∈ string := mem_string.mpr ⟨body, hbody, rfl⟩
    have hlongest : Longest ('"' :: (body ++ ['"'])) ('"' :: (body ++ '"' :: r)) := by
      intro v hv hprefix
      have hlength := stringEnd_of_isPrefix (string_of_isPrefix hv hprefix) hprefix
      have hn : body.length + 1 = v.length - 1 := congrArg Prod.snd (hend.symm.trans hlength)
      simp only [List.length_cons, List.length_append, List.length_nil]
      omega
    have htext : '"' :: (body ++ '"' :: r) = '"' :: (body ++ ['"']) ++ r := by simp
    have hcut : body.length + 1 + 1 = ('"' :: (body ++ ['"'])).length := by simp
    rw [htext] at hlongest ⊢
    rw [hcut]
    exact Cut.right_keep (fun _ => rfl) (fun _ _ => Token.Kind.noConfusion) hmem hlongest
  · rw [hend] at h
    cases h

theorem Cut.right_openString {rest : List Char} {n : Nat} (h : stringEnd rest = (false, n)) :
    Cut.Right (.bad (n + 1)) ('"' :: rest) := by
  obtain ⟨body, after, rfl, hbody, ⟨r, _, hend⟩ | ⟨hstop, hend⟩⟩ := exists_stringEnd rest
  · rw [hend] at h
    cases h
  · obtain rfl : body.length = n := congrArg Prod.snd (hend.symm.trans h)
    show Cut.Right (.bad ('"' :: body).length) ('"' :: body ++ after)
    refine .bad (.string (fun v hv hprefix => ?_) hbody hstop)
    have hclosed := stringEnd_of_isPrefix (string_of_isPrefix hv hprefix) hprefix
    rw [hend] at hclosed
    cases hclosed

theorem Cut.right_lineComment (rest : List Char) :
    Cut.Right (.gap (2 + runLength (· != '\n') rest)) ('/' :: '/' :: rest) := by
  obtain ⟨body, after, rfl, hbody, hafter⟩ := exists_run (· != '\n') rest
  have hgap : Gap ('/' :: '/' :: (body ++ [])) after := by
    refine .line (fun h => ?_) (fun c hc => ?_) .none
    · exact absurd (hbody '\n' h) (by decide)
    · simpa using hafter c hc
  rw [List.append_nil] at hgap
  rw [runLength_append hbody hafter, Nat.add_comm]
  exact .gap (List.cons_ne_nil _ _) hgap

theorem Cut.right_blockComment {rest : List Char} {n : Nat} (h : commentEnd? rest = some n) :
    Cut.Right (.gap (2 + n)) ('/' :: '*' :: rest) := by
  obtain ⟨body, after, rfl, rfl, hbody⟩ := commentEnd?_eq_some h
  have hgap : Gap ('/' :: '*' :: (body ++ '*' :: '/' :: [])) after := .block hbody .none
  have htext : '/' :: '*' :: (body ++ '*' :: '/' :: after) = '/' :: '*' :: (body ++ ['*', '/']) ++ after := by
    simp
  have hcut : 2 + (body.length + 2) = ('/' :: '*' :: (body ++ ['*', '/'])).length := by
    simp only [List.length_cons, List.length_append, List.length_nil]
    omega
  rw [htext, hcut]
  exact .gap (List.cons_ne_nil _ _) hgap

theorem Cut.right_openComment {rest : List Char} (h : commentEnd? rest = none) :
    Cut.Right (.bad (2 + rest.length)) ('/' :: '*' :: rest) := by
  have hbad := Cut.Right.bad (.comment (commentEnd?_eq_none h))
  rw [List.append_nil] at hbad
  rw [Nat.add_comm]
  exact hbad

theorem mem_blanks {c : Char} (h : isBlank c = true) : c ∈ [' ', '\t', '\n', '\r', '\x0c'] := by
  simpa [isBlank, or_assoc] using h

/-! ## Every cut -/

/-- **Every cut is right.** -/
theorem Cut.right_ofChars {cs : List Char} (h : cs ≠ []) : Cut.Right (Cut.ofChars cs) cs := by
  fun_cases Cut.ofChars cs with
  | case1 rest => exact Cut.right_lineComment rest
  | case2 rest n hend => exact Cut.right_blockComment hend
  | case3 rest hend => exact Cut.right_openComment hend
  | case4 rest n hend => exact Cut.right_string hend
  | case5 rest n hend => exact Cut.right_openString hend
  | case6 c rest hc => exact Cut.right_number (lead_point hc)
  | case7 c rest hc =>
      refine Cut.right_symbol h (lead_sign (by decide) (by decide) (by decide) fun _ d hd => ?_)
      cases hd
      exact hc
  | case8 c rest _ _ _ _ hc =>
      show Cut.Right (.gap [c].length) ([c] ++ rest)
      exact .gap (List.cons_ne_nil _ _) (.blank (mem_blanks hc) .none)
  | case9 c rest _ _ _ _ _ hc => exact Cut.right_word hc
  | case10 c rest _ _ _ _ _ _ hc => exact Cut.right_number (lead_of_isDigit hc)
  | case11 c rest _ _ hquote hpoint _ hword hdigit =>
      refine Cut.right_symbol h (lead_sign hword hdigit hquote fun hc d hd => ?_)
      cases rest with
      | nil => cases hd
      | cons d rest => exact (hpoint d rest hc rfl).elim
  | case12 => exact absurd rfl h

end Jaf
