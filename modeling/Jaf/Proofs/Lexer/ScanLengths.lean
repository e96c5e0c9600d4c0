import Jaf.Proofs.Lexer.TokenPatterns

/-!
# How far the scanner counts

The scanner measures what stands at the head of a text: a run of characters, a comment, the inside of a
string, the parts of a number. Each measure is given here on a text that is taken apart into what it runs
over and what stops it, and every text can be taken apart like that. A measure of a part of a token is also
compared with the pattern of that part: whatever fits the pattern at the head of the text is not longer.
-/

namespace Jaf

open Computability Spelling

/-! ## Runs of characters -/

/-- What stops a run: the end of the text, or a character outside the class. -/
def Stops (p : Char → Bool) (cs : List Char) : Prop := ∀ c, cs.head? = some c → p c = false

section Runs

variable {p : Char → Bool}

theorem Stops.cons {c : Char} (h : p c = false) (cs : List Char) : Stops p (c :: cs) := by
  intro d hd
  cases hd
  exact h

theorem takeWhile_run {ds rest : List Char} (hds : ∀ c ∈ ds, p c = true) (hrest : Stops p rest) :
    (ds ++ rest).takeWhile p = ds := by
  have hnone : rest.takeWhile p = [] := by
    cases rest with
    | nil => rfl
    | cons c cs => exact List.takeWhile_cons_of_neg (by rw [hrest c rfl]; decide)
  rw [List.takeWhile_append_of_pos hds, hnone, List.append_nil]

theorem dropWhile_run {ds rest : List Char} (hds : ∀ c ∈ ds, p c = true) (hrest : Stops p rest) :
    (ds ++ rest).dropWhile p = rest := by
  rw [List.dropWhile_append_of_pos hds]
  cases rest with
  | nil => rfl
  | cons c cs => exact List.dropWhile_cons_of_neg (by rw [hrest c rfl]; decide)

/-- A text is taken apart into a run and what stops it in one way only. -/
theorem run_append_inj {ds ds' rest rest' : List Char} (hds : ∀ c ∈ ds, p c = true)
    (hds' : ∀ c ∈ ds', p c = true) (hrest : Stops p rest) (hrest' : Stops p rest')
    (h : ds ++ rest = ds' ++ rest') : ds = ds' ∧ rest = rest' := by
  refine ⟨?_, ?_⟩
  · rw [← takeWhile_run hds hrest, h, takeWhile_run hds' hrest']
  · rw [← dropWhile_run hds hrest, h, dropWhile_run hds' hrest']

theorem runLength_append {ds rest : List Char} (hds : ∀ c ∈ ds, p c = true) (hrest : Stops p rest) :
    runLength p (ds ++ rest) = ds.length := by
  rw [runLength, takeWhile_run hds hrest]

/-- Every text is a run and what stops it. -/
theorem exists_run (p : Char → Bool) (cs : List Char) :
    ∃ ds rest, cs = ds ++ rest ∧ (∀ c ∈ ds, p c = true) ∧ Stops p rest := by
  refine ⟨cs.takeWhile p, cs.dropWhile p, List.takeWhile_append_dropWhile.symm, ?_, ?_⟩
  · exact List.all_eq_true.mp List.all_takeWhile
  · intro c hc
    have h := List.head?_dropWhile_not p cs
    rw [hc] at h
    simpa using h

theorem length_le_of_run {ds rest f : List Char} (hds : ∀ c ∈ ds, p c = true) (hrest : Stops p rest)
    (hf : ∀ c ∈ f, p c = true) (h : f <+: ds ++ rest) : f.length ≤ ds.length := by
  obtain ⟨u, hu⟩ := h
  have hfs : f ++ u.takeWhile p = ds := by
    rw [← List.takeWhile_append_of_pos hf, hu, takeWhile_run hds hrest]
  rw [← hfs, List.length_append]
  exact Nat.le_add_right _ _

/-- A run that something else follows ends where the run of the whole text ends. -/
theorem run_unique {ds rest f m : List Char} (hds : ∀ c ∈ ds, p c = true) (hrest : Stops p rest)
    (hf : ∀ c ∈ f, p c = true) (hm : Stops p m) (hne : m ≠ []) (h : f ++ m <+: ds ++ rest) :
    f = ds ∧ m <+: rest := by
  obtain ⟨u, hu⟩ := h
  have hmu : Stops p (m ++ u) := by
    intro c hc
    rw [List.head?_append_of_ne_nil _ hne] at hc
    exact hm c hc
  have hf' : f = ds := by
    rw [← takeWhile_run hf hmu, ← List.append_assoc, hu, takeWhile_run hds hrest]
  subst hf'
  rw [List.append_assoc] at hu
  exact ⟨rfl, u, List.append_cancel_left hu⟩

end Runs

/-! ## Comments and strings -/

theorem commentEnd?_eq_some {cs : List Char} {n : Nat} (h : commentEnd? cs = some n) :
    ∃ body after, cs = body ++ '*' :: '/' :: after ∧ n = body.length + 2 ∧
      ¬ ['*', '/'] <:+: body ++ ['*'] := by
  fun_induction commentEnd? cs generalizing n with
  | case1 after =>
      cases h
      exact ⟨[], after, rfl, rfl, by decide⟩
  | case2 c cs hno ih =>
      obtain ⟨m, hm, rfl⟩ := Option.map_eq_some_iff.mp h
      obtain ⟨body, after, rfl, rfl, hbody⟩ := ih hm
      refine ⟨c :: body, after, rfl, rfl, ?_⟩
      rw [List.cons_append, List.infix_cons_iff]
      rintro (hhead | hrest)
      · obtain ⟨t, ht⟩ := hhead
        obtain ⟨rfl, htail⟩ := List.cons.inj ht
        cases body with
        | nil => cases htail
        | cons d body =>
            obtain ⟨rfl, _⟩ := List.cons.inj htail
            exact hno _ rfl rfl
      · exact hbody hrest
  | case3 => cases h

theorem commentEnd?_eq_none {cs : List Char} (h : commentEnd? cs = none) : ¬ ['*', '/'] <:+: cs := by
  fun_induction commentEnd? cs with
  | case1 => cases h
  | case2 c cs hno ih =>
      rw [List.infix_cons_iff]
      rintro (hhead | hrest)
      · obtain ⟨t, ht⟩ := hhead
        cases ht
        exact hno t rfl rfl
      · exact ih (Option.map_eq_none_iff.mp h) hrest
  | case3 => decide

theorem stringEnd_plain {c : Char} (hquote : c ≠ '"') (hslash : c ≠ '\\') (cs : List Char) :
    stringEnd (c :: cs) = ((stringEnd cs).1, (stringEnd cs).2 + 1) := by
  rw [stringEnd]
  all_goals simp_all

theorem stringEnd_escape {c : Char} (h : c ≠ '\n') (cs : List Char) :
    stringEnd ('\\' :: c :: cs) = ((stringEnd cs).1, (stringEnd cs).2 + 2) := by
  rw [stringEnd]
  all_goals simp_all

theorem plain_mem_stringPart {c : Char} (hquote : c ≠ '"') (hslash : c ≠ '\\') : [c] ∈ stringPart :=
  .inl ⟨c, by simp [hquote, hslash], rfl⟩

theorem escape_mem_stringPart {c : Char} (h : c ≠ '\n') : ['\\', c] ∈ stringPart :=
  .inr (Language.append_mem_mul (a := ['\\']) (b := [c]) rfl ⟨c, by simp [h], rfl⟩)

theorem append_mem_kstar {l : Language Char} {v w : List Char} (hv : v ∈ l) (hw : w ∈ l∗) :
    v ++ w ∈ l∗ := by
  obtain ⟨L, rfl, hL⟩ := Language.mem_kstar.mp hw
  exact Language.mem_kstar.mpr ⟨v :: L, rfl, List.forall_mem_cons.mpr ⟨hv, hL⟩⟩

/-- The text up to a closing quote is parts of a string, and so is what a string without one takes. -/
theorem exists_stringEnd (cs : List Char) :
    ∃ body after, cs = body ++ after ∧ body ∈ stringPart∗ ∧
      ((∃ rest, after = '"' :: rest ∧ stringEnd cs = (true, body.length + 1)) ∨
        (after = [] ∨ after = ['\\'] ∨ ∃ rest, after = '\\' :: '\n' :: rest) ∧
          stringEnd cs = (false, body.length)) := by
  fun_induction stringEnd cs with
  | case1 rest => exact ⟨[], _, rfl, Language.nil_mem_kstar _, .inl ⟨rest, rfl, rfl⟩⟩
  | case2 => exact ⟨[], _, rfl, Language.nil_mem_kstar _, .inr ⟨.inr (.inl rfl), rfl⟩⟩
  | case3 rest => exact ⟨[], _, rfl, Language.nil_mem_kstar _, .inr ⟨.inr (.inr ⟨rest, rfl⟩), rfl⟩⟩
  | case4 c cs hc closed n hend ih =>
      obtain ⟨body, after, rfl, hbody, hafter⟩ := ih
      refine ⟨'\\' :: c :: body, after, rfl, append_mem_kstar (escape_mem_stringPart hc) hbody, ?_⟩
      rw [hend] at hafter
      obtain ⟨rest, rfl, heq⟩ | ⟨hstop, heq⟩ := hafter
      · cases heq
        exact .inl ⟨rest, rfl, rfl⟩
      · cases heq
        exact .inr ⟨hstop, rfl⟩
  | case5 c cs hquote hslash hslash' hslash'' closed n hend ih =>
      have hc : c ≠ '\\' := by
        intro h
        cases cs with
        | nil => exact hslash h rfl
        | cons d ds => exact hslash'' d ds h rfl
      obtain ⟨body, after, rfl, hbody, hafter⟩ := ih
      refine ⟨c :: body, after, rfl, append_mem_kstar (plain_mem_stringPart hquote hc) hbody, ?_⟩
      rw [hend] at hafter
      obtain ⟨rest, rfl, heq⟩ | ⟨hstop, heq⟩ := hafter
      · cases heq
        exact .inl ⟨rest, rfl, rfl⟩
      · cases heq
        exact .inr ⟨hstop, rfl⟩
  | case6 => exact ⟨[], _, rfl, Language.nil_mem_kstar _, .inr ⟨.inl rfl, rfl⟩⟩

/-- Parts of a string with a quote behind them are the whole of it. -/
theorem stringEnd_of_mem {body : List Char} (h : body ∈ stringPart∗) (rest : List Char) :
    stringEnd (body ++ '"' :: rest) = (true, body.length + 1) := by
  obtain ⟨L, rfl, hL⟩ := Language.mem_kstar.mp h
  clear h
  induction L with
  | nil => rfl
  | cons part L ih =>
      obtain ⟨hpart, hL⟩ := List.forall_mem_cons.mp hL
      have hend := ih hL
      rw [List.flatten_cons, List.append_assoc]
      rcases hpart with ⟨c, hc, rfl⟩ | hpart
      · have hc' : c ≠ '"' ∧ c ≠ '\\' := by simpa using hc
        rw [List.singleton_append, stringEnd_plain hc'.1 hc'.2, hend]
        simp
      · obtain ⟨_, rfl, _, ⟨c, hc, rfl⟩, rfl⟩ := Language.mem_mul.mp hpart
        have hc' : c ≠ '\n' := by simpa using hc
        simp only [List.cons_append, List.nil_append]
        rw [stringEnd_escape hc', hend]
        simp

/-- The string literal at the head of a text ends at the quote that ends the parts behind the first. -/
theorem stringEnd_of_isPrefix {v rest : List Char} (hv : v ∈ string) (h : v <+: '"' :: rest) :
    stringEnd rest = (true, v.length - 1) := by
  obtain ⟨body, hbody, rfl⟩ := mem_string.mp hv
  obtain ⟨u, hu⟩ := h
  have hrest : rest = body ++ '"' :: u := by simpa using (List.cons.inj hu).2.symm
  rw [hrest, stringEnd_of_mem hbody]
  simp

/-! ## Exponents and suffixes -/

/-- The length of the exponent and of the suffix that stand at the head of a text. -/
def tailLength (cs : List Char) : Nat := exponentLength cs + suffixLength (cs.drop (exponentLength cs))

theorem floatLength_eq (cs : List Char) (n : Nat) : floatLength cs n = n + tailLength (cs.drop n) := by
  simp only [floatLength, tailLength, List.drop_drop, Nat.add_assoc]

/-- A sign that may stand there, and what comes after it begins with none if there is none. -/
def Signed (sign cs : List Char) : Prop :=
  sign = [] ∧ Stops (fun c => c == '+' || c == '-') cs ∨ sign = ['+'] ∨ sign = ['-']

theorem exists_sign (cs : List Char) : ∃ sign rest, cs = sign ++ rest ∧ Signed sign rest := by
  cases cs with
  | nil => exact ⟨[], [], rfl, .inl ⟨rfl, by simp [Stops]⟩⟩
  | cons c cs =>
      by_cases hplus : c = '+'
      · exact ⟨['+'], cs, by rw [hplus]; rfl, .inr (.inl rfl)⟩
      · by_cases hminus : c = '-'
        · exact ⟨['-'], cs, by rw [hminus]; rfl, .inr (.inr rfl)⟩
        · exact ⟨[], c :: cs, rfl, .inl ⟨rfl, .cons (by simp [hplus, hminus]) cs⟩⟩

/-- An exponent goes as far as its digits do, and is none without digits. -/
theorem exponentLength_cons {e : Char} {sign cs : List Char} (he : e = 'e' ∨ e = 'E')
    (hsign : Signed sign cs) :
    exponentLength (e :: (sign ++ cs)) =
      if runLength Char.isDigit cs = 0 then 0 else 1 + sign.length + runLength Char.isDigit cs := by
  have hletter : (e == 'e' || e == 'E') = true := by simpa using he
  -- without a sign the scanner has to see that none stands here
  have hnone : ∀ c, cs.head? = some c → sign = [] → c ≠ '+' ∧ c ≠ '-' := by
    rintro c hc rfl
    rcases hsign with ⟨_, hstop⟩ | h | h
    · simpa using hstop c hc
    · cases h
    · cases h
  have hsign' : sign = [] ∨ sign = ['+'] ∨ sign = ['-'] := hsign.imp_left And.left
  rcases hsign' with rfl | rfl | rfl
  · cases cs with
    | nil => simp [exponentLength, hletter, runLength]
    | cons c cs =>
        cases hrun : runLength Char.isDigit (c :: cs) <;>
          simp [exponentLength, hletter, hrun, hnone c rfl rfl]
  · cases hrun : runLength Char.isDigit cs <;> simp [exponentLength, hletter, hrun]
  · cases hrun : runLength Char.isDigit cs <;> simp [exponentLength, hletter, hrun]

theorem exponentLength_append {e : Char} {sign ds rest : List Char} (he : e = 'e' ∨ e = 'E')
    (hsign : sign = [] ∨ sign = ['+'] ∨ sign = ['-']) (hne : ds ≠ [])
    (hds : ∀ c ∈ ds, c.isDigit = true) (hrest : Stops Char.isDigit rest) :
    exponentLength (e :: (sign ++ (ds ++ rest))) = 1 + sign.length + ds.length := by
  have hsigned : Signed sign (ds ++ rest) := by
    refine hsign.imp_left fun h => ⟨h, fun c hc => ?_⟩
    rw [List.head?_append_of_ne_nil _ hne] at hc
    have hdigit : c.isDigit = true := hds c (List.mem_of_mem_head? hc)
    rw [Bool.eq_false_iff]
    intro hc'
    rw [Bool.or_eq_true, beq_iff_eq, beq_iff_eq] at hc'
    rcases hc' with rfl | rfl
    · exact absurd hdigit (by decide)
    · exact absurd hdigit (by decide)
  rw [exponentLength_cons he hsigned, runLength_append hds hrest, if_neg (by simpa using hne)]

/-- An exponent of some length is one. -/
theorem exists_exponent {cs : List Char} (h : exponentLength cs ≠ 0) :
    ∃ w rest, cs = w ++ rest ∧ w ∈ exponent ∧ exponentLength cs = w.length := by
  cases cs with
  | nil => exact absurd rfl h
  | cons e cs =>
      by_cases he : e = 'e' ∨ e = 'E'
      · obtain ⟨sign, cs, rfl, hsign⟩ := exists_sign cs
        obtain ⟨ds, rest, rfl, hds, hrest⟩ := exists_run Char.isDigit cs
        have hlength := exponentLength_cons he hsign
        rw [runLength_append hds hrest] at hlength
        have hne : ds ≠ [] := by
          rintro rfl
          exact h hlength
        refine ⟨e :: (sign ++ ds), rest, by simp, ?_, ?_⟩
        · exact mem_exponent.mpr ⟨e, sign, ds, he, hsign.imp_left And.left, ⟨hne, hds⟩, rfl⟩
        · rw [hlength, if_neg (by simpa using hne)]
          simp only [List.length_cons, List.length_append]
          omega
      · exact absurd (by simp [exponentLength, not_or.mp he]) h

theorem exists_suffix (cs : List Char) :
    ∃ w rest, cs = w ++ rest ∧ w ∈ suffix ∧ suffixLength cs = w.length := by
  fun_cases suffixLength cs with
  | case1 rest => exact ⟨['f'], rest, rfl, .inr (.inl rfl), rfl⟩
  | case2 rest => exact ⟨['F'], rest, rfl, .inr (.inr rfl), rfl⟩
  | case3 => exact ⟨[], cs, rfl, .inl rfl, rfl⟩

theorem exists_tail (cs : List Char) :
    ∃ t rest, cs = t ++ rest ∧ t ∈ tail ∧ tailLength cs = t.length ∧
      (exponentLength cs ≠ 0 → t ∈ exponent * suffix) := by
  by_cases h : exponentLength cs = 0
  · obtain ⟨w, rest, hcs, hw, hlength⟩ := exists_suffix cs
    refine ⟨w, rest, hcs, Language.append_mem_mul (a := []) (.inl rfl) hw, ?_, absurd h⟩
    rw [tailLength, h, List.drop_zero, hlength, Nat.zero_add]
  · obtain ⟨x, cs', rfl, hx, hlength⟩ := exists_exponent h
    obtain ⟨w, rest, rfl, hw, hlength'⟩ := exists_suffix cs'
    refine ⟨x ++ w, rest, by simp, Language.append_mem_mul (.inr hx) hw, ?_,
      fun _ => Language.append_mem_mul hx hw⟩
    rw [tailLength, hlength, List.drop_left, hlength', List.length_append]

/-- What follows the digits of a float begins with a letter. -/
theorem stops_tail {t : List Char} (ht : t ∈ tail) : Stops Char.isDigit t := by
  obtain ⟨x, hx, w, hw, rfl⟩ := Language.mem_mul.mp ht
  rcases hx with rfl | hx
  · rcases mem_suffix.mp hw with rfl | rfl | rfl
    · exact fun c hc => by cases hc
    · exact .cons (by decide) _
    · exact .cons (by decide) _
  · obtain ⟨e, sign, ds, he, _, _, rfl⟩ := mem_exponent.mp hx
    rcases he with rfl | rfl
    · exact .cons (by decide) _
    · exact .cons (by decide) _

theorem stops_suffix {w : List Char} (hw : w ∈ suffix) : Stops Char.isDigit w :=
  stops_tail (Language.append_mem_mul (a := []) (.inl rfl) hw)

theorem length_le_exponentLength {x cs : List Char} (hx : x ∈ exponent) (h : x <+: cs) :
    x.length ≤ exponentLength cs := by
  obtain ⟨e, sign, ds, he, hsign, ⟨hne, hds⟩, rfl⟩ := mem_exponent.mp hx
  obtain ⟨u, rfl⟩ := h
  obtain ⟨ds', rest, rfl, hds', hrest⟩ := exists_run Char.isDigit u
  have hall : ∀ c ∈ ds ++ ds', c.isDigit = true := by
    intro c hc
    exact (List.mem_append.mp hc).elim (hds c) (hds' c)
  have hlength := exponentLength_append he hsign (List.append_ne_nil_of_left_ne_nil hne ds') hall hrest
  have hcs : e :: (sign ++ ds) ++ (ds' ++ rest) = e :: (sign ++ (ds ++ ds' ++ rest)) := by simp
  rw [hcs, hlength]
  simp only [List.length_cons, List.length_append]
  omega

/-- No exponent and suffix at the head of a text are longer than those that are cut. -/
theorem length_le_tailLength {t cs : List Char} (ht : t ∈ tail) (h : t <+: cs) :
    t.length ≤ tailLength cs := by
  obtain ⟨x, hx, w, hw, rfl⟩ := Language.mem_mul.mp ht
  rcases hx with rfl | hx
  · obtain ⟨u, rfl⟩ := h
    rcases mem_suffix.mp hw with rfl | rfl | rfl
    · exact Nat.zero_le _
    · exact Nat.le_refl 1
    · exact Nat.le_refl 1
  · by_cases hnil : w = []
    · rw [hnil, List.append_nil] at h ⊢
      exact Nat.le_trans (length_le_exponentLength hx h) (Nat.le_add_right _ _)
    -- the suffix stops the digits of the exponent
    · obtain ⟨u, rfl⟩ := h
      have hstop : Stops Char.isDigit (w ++ u) := by
        intro c hc
        rw [List.head?_append_of_ne_nil _ hnil] at hc
        exact stops_suffix hw c hc
      have hsuffix : suffixLength (w ++ u) = w.length := by
        rcases mem_suffix.mp hw with rfl | rfl | rfl
        · exact absurd rfl hnil
        · rfl
        · rfl
      obtain ⟨e, sign, ds, he, hsign, ⟨hne, hds⟩, rfl⟩ := mem_exponent.mp hx
      have hlength := exponentLength_append he hsign hne hds hstop
      have hcs : e :: (sign ++ ds) ++ w ++ u = e :: (sign ++ (ds ++ (w ++ u))) := by simp
      have hdrop : (e :: (sign ++ (ds ++ (w ++ u)))).drop (1 + sign.length + ds.length) = w ++ u := by
        have hlen : 1 + sign.length + ds.length = (e :: (sign ++ ds)).length := by
          simp only [List.length_cons, List.length_append]
          omega
        rw [hlen, ← hcs, List.append_assoc, List.drop_left]
      rw [hcs, tailLength, hlength, hdrop, hsuffix]
      simp only [List.length_cons, List.length_append]
      omega

/-! ## Digits -/

theorem hexDigits_append {x : Char} {ds rest : List Char} (hx : x = 'x' ∨ x = 'X')
    (hds : ∀ c ∈ ds, isHexDigit c = true) (hrest : Stops isHexDigit rest) :
    hexDigits ('0' :: x :: (ds ++ rest)) = ds.length := by
  rcases hx with rfl | rfl
  · exact runLength_append hds hrest
  · exact runLength_append hds hrest

/-- Digits after a hexadecimal mark make a literal. -/
theorem exists_hex {cs : List Char} (h : hexDigits cs ≠ 0) :
    ∃ x ds rest, cs = '0' :: x :: (ds ++ rest) ∧ (x = 'x' ∨ x = 'X') ∧ '0' :: x :: ds ∈ hex ∧
      hexDigits cs = ds.length := by
  obtain ⟨x, cs, rfl, hx⟩ : ∃ x cs', cs = '0' :: x :: cs' ∧ (x = 'x' ∨ x = 'X') := by
    fun_cases hexDigits cs with
    | case1 cs => exact ⟨'x', cs, rfl, .inl rfl⟩
    | case2 cs => exact ⟨'X', cs, rfl, .inr rfl⟩
    | case3 hx hX => exact absurd (by rw [hexDigits] <;> assumption) h
  obtain ⟨ds, rest, rfl, hds, hrest⟩ := exists_run isHexDigit cs
  have hlength : hexDigits ('0' :: x :: (ds ++ rest)) = ds.length := hexDigits_append hx hds hrest
  have hne : ds ≠ [] := by
    rintro rfl
    exact h hlength
  exact ⟨x, ds, rest, rfl, hx, mem_hex.mpr ⟨x, ds, hx, ⟨hne, hds⟩, rfl⟩, hlength⟩

/-- The hexadecimal literals at the head of a text. -/
theorem length_le_hexDigits {v cs : List Char} (hv : v ∈ hex) (h : v <+: cs) :
    hexDigits cs ≠ 0 ∧ v.length ≤ hexDigits cs + 2 := by
  obtain ⟨x, ds, hx, ⟨hne, hds⟩, rfl⟩ := mem_hex.mp hv
  obtain ⟨u, rfl⟩ := h
  obtain ⟨ds', rest, rfl, hds', hrest⟩ := exists_run isHexDigit u
  have hall : ∀ c ∈ ds ++ ds', isHexDigit c = true := by
    intro c hc
    exact (List.mem_append.mp hc).elim (hds c) (hds' c)
  have hcs : '0' :: x :: ds ++ (ds' ++ rest) = '0' :: x :: (ds ++ ds' ++ rest) := by simp
  have hpos : 0 < ds.length := List.length_pos_of_ne_nil hne
  rw [hcs, hexDigits_append hx hall hrest]
  simp only [List.length_cons, List.length_append]
  omega

section Digits

variable {ds rest : List Char} (hds : ∀ c ∈ ds, c.isDigit = true) (hrest : Stops Char.isDigit rest)

include hds hrest

/-- A float at the head of a text shares its leading digits with the text. -/
theorem float_isPrefix {v : List Char} (hv : v ∈ float) (h : v <+: ds ++ rest) :
    (∃ fs t, (∀ c ∈ fs, c.isDigit = true) ∧ t ∈ tail ∧ v = ds ++ '.' :: (fs ++ t) ∧
        '.' :: (fs ++ t) <+: rest) ∨
      ∃ t ∈ exponent * suffix, v = ds ++ t ∧ t <+: rest := by
  obtain ⟨fs', hfs', ⟨fs, t, hfs, _, ht, rfl⟩ | ⟨t, ht, _, rfl⟩⟩ := mem_float.mp hv
  · have hpoint : Stops Char.isDigit ('.' :: (fs ++ t)) := .cons (by decide) _
    obtain ⟨rfl, hrest'⟩ := run_unique hds hrest hfs' hpoint (List.cons_ne_nil _ _) h
    exact .inl ⟨fs, t, hfs, ht, rfl, hrest'⟩
  · obtain ⟨x, hx, w, hw, rfl⟩ := Language.mem_mul.mp ht
    have hstop : Stops Char.isDigit (x ++ w) := stops_tail (Language.append_mem_mul (.inr hx) hw)
    have hne : x ++ w ≠ [] := by
      obtain ⟨e, sign, es, _, _, _, rfl⟩ := mem_exponent.mp hx
      exact List.cons_ne_nil _ _
    obtain ⟨rfl, hrest'⟩ := run_unique hds hrest hfs' hstop hne h
    exact .inr ⟨_, ht, rfl, hrest'⟩

/-- Digits with a tail behind them, at the head of a text. -/
theorem length_le_fraction {fs t : List Char} (hfs : ∀ c ∈ fs, c.isDigit = true) (ht : t ∈ tail)
    (h : fs ++ t <+: ds ++ rest) : (fs ++ t).length ≤ ds.length + tailLength rest := by
  by_cases hnil : t = []
  · rw [hnil, List.append_nil] at h ⊢
    exact Nat.le_trans (length_le_of_run hds hrest hfs h) (Nat.le_add_right _ _)
  · obtain ⟨rfl, hrest'⟩ := run_unique hds hrest hfs (stops_tail ht) hnil h
    rw [List.length_append]
    exact Nat.add_le_add_left (length_le_tailLength ht hrest') _

end Digits

end Jaf
