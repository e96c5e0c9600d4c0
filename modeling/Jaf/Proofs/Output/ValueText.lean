import Jaf.Proofs.Output.FloatText

/-!
# The text of a value tells which value it is

A quoted text is a code: no character is written as the beginning of what another one is written as, so the
characters can be told one after the other (`quoteChar_append_inj`), and neither a line end nor a bare quote
stands between the quotes. An integer is written as digits, a number as something that is not only digits,
and a text starts with a quote, so the three sorts of values cannot be taken for one another either
(`Value.text_injective`). The text of a value never goes over the end of a line.
-/

namespace Jaf

/-! ## Quoted texts -/

/-- The character that a letter behind a backslash stands for. -/
def unquoted (letter : Char) : Char :=
  if letter = '0' then '\x00'
  else if letter = 't' then '\t'
  else if letter = 'r' then '\r'
  else if letter = 'n' then '\n'
  else letter

/-- The number of a character behind a backslash and a `u`. -/
def codeText (c : Char) : List Char := '\x7b' :: (Nat.toDigits 16 c.toNat ++ ['\x7d'])

/-- The three ways to write a character: as it is, as a letter behind a backslash, and by its number. -/
theorem quoteChar_cases (c : Char) :
    (quoteChar c = [c] ∧ c ≠ '\\' ∧ c ≠ '\n') ∨
      (∃ letter, quoteChar c = ['\\', letter] ∧ letter ≠ 'u' ∧ letter ≠ '\n' ∧ unquoted letter = c) ∨
      quoteChar c = '\\' :: 'u' :: codeText c := by
  unfold quoteChar
  repeat' split
  · exact .inr (.inl ⟨'"', by simp_all [unquoted]⟩)
  · exact .inr (.inl ⟨'\\', by simp_all [unquoted]⟩)
  · exact .inr (.inl ⟨'0', by simp_all [unquoted]⟩)
  · exact .inr (.inl ⟨'t', by simp_all [unquoted]⟩)
  · exact .inr (.inl ⟨'r', by simp_all [unquoted]⟩)
  · exact .inr (.inl ⟨'n', by simp_all [unquoted]⟩)
  · exact .inr (.inr rfl)
  · exact .inl ⟨rfl, by simp_all, by simp_all⟩

theorem isHexDigit_toDigits (n : Nat) : ∀ d ∈ Nat.toDigits 16 n, isHexDigit d = true :=
  (toDigits_mem (by decide) (fun d hd => (digitChar_of_lt hd).2.1) n).2

/-- A number ends where its digits end. -/
theorem codeText_append_inj {c c' : Char} {u u' : List Char}
    (h : codeText c ++ u = codeText c' ++ u') : c = c' ∧ u = u' := by
  have hstop : ∀ v : List Char, Stops isHexDigit ('\x7d' :: v) := fun v => .cons (by decide) v
  simp only [codeText, List.cons_append, List.append_assoc, List.nil_append] at h
  obtain ⟨hdigits, hrest⟩ := run_append_inj (isHexDigit_toDigits _) (isHexDigit_toDigits _)
    (hstop u) (hstop u') (List.cons.inj h).2
  refine ⟨?_, (List.cons.inj hrest).2⟩
  have hvalue := congrArg (digitsValue 16) hdigits
  rw [digitsValue_toDigits (by decide) (by decide), digitsValue_toDigits (by decide) (by decide)] at hvalue
  exact Char.toNat_inj.mp hvalue

/-- **What a character is written as tells the character**, whatever comes behind. -/
theorem quoteChar_append_inj {c c' : Char} {u u' : List Char}
    (h : quoteChar c ++ u = quoteChar c' ++ u') : c = c' ∧ u = u' := by
  rcases quoteChar_cases c with ⟨hc, hne, _⟩ | ⟨letter, hc, hu, _, hl⟩ | hc <;>
    rcases quoteChar_cases c' with ⟨hc', hne', _⟩ | ⟨letter', hc', hu', _, hl'⟩ | hc' <;>
    rw [hc, hc'] at h
  · exact ⟨(List.cons.inj h).1, (List.cons.inj h).2⟩
  · exact absurd (List.cons.inj h).1 hne
  · exact absurd (List.cons.inj h).1 hne
  · exact absurd (List.cons.inj h).1.symm hne'
  · obtain ⟨hletter, hrest⟩ := List.cons.inj (List.cons.inj h).2
    exact ⟨by rw [← hl, hletter, hl'], hrest⟩
  · exact absurd (List.cons.inj (List.cons.inj h).2).1 hu
  · exact absurd (List.cons.inj h).1.symm hne'
  · exact absurd (List.cons.inj (List.cons.inj h).2).1.symm hu'
  · exact codeText_append_inj (List.cons.inj (List.cons.inj h).2).2

theorem quoteChar_ne_nil (c : Char) : quoteChar c ≠ [] := by
  rcases quoteChar_cases c with ⟨hc, _⟩ | ⟨letter, hc, _⟩ | hc <;> rw [hc] <;> exact List.cons_ne_nil _ _

theorem flatMap_quoteChar_inj (cs cs' : List Char) (h : cs.flatMap quoteChar = cs'.flatMap quoteChar) :
    cs = cs' := by
  induction cs generalizing cs' with
  | nil =>
      cases cs' with
      | nil => rfl
      | cons c cs' => exact absurd (List.append_eq_nil_iff.mp h.symm).1 (quoteChar_ne_nil c)
  | cons c cs ih =>
      cases cs' with
      | nil => exact absurd (List.append_eq_nil_iff.mp h).1 (quoteChar_ne_nil c)
      | cons c' cs' =>
          obtain ⟨rfl, hrest⟩ := quoteChar_append_inj h
          rw [ih cs' hrest]

theorem quote_injective : Function.Injective quote := by
  intro s s' h
  have hlist := congrArg String.toList h
  simp only [quote, String.toList_append, String.toList_ofList] at hlist
  exact String.toList_inj.mp (flatMap_quoteChar_inj _ _
    (List.append_cancel_left (List.append_cancel_right hlist)))

/-! ## Numbers -/

/-- The characters of a whole number. -/
def isWhole (c : Char) : Bool := c.isDigit || c == '-'

/-- The characters of a number that need not be whole. -/
def isNumeric (c : Char) : Bool := isWhole c || ['.', 'e', 'N', 'a', 'i', 'n', 'f'].contains c

/-- The texts of numbers that are not written like a whole number. -/
structure Broken (cs : List Char) : Prop where
  numeric : ∀ c ∈ cs, isNumeric c = true
  mark : ∃ c ∈ cs, isWhole c = false

theorem isNumeric_of_isDigit {c : Char} (h : c.isDigit = true) : isNumeric c = true := by
  simp [isNumeric, isWhole, h]

theorem isNumeric_of_isWhole {c : Char} (h : isWhole c = true) : isNumeric c = true := by simp [isNumeric, h]

/-- A number is broken by a point or an exponent among characters of whole numbers. -/
theorem Broken.between {cs ds : List Char} {mark : Char} (hcs : ∀ c ∈ cs, isNumeric c = true)
    (hds : ∀ c ∈ ds, isNumeric c = true) (hmark : isNumeric mark = true) (hwhole : isWhole mark = false) :
    Broken (cs ++ mark :: ds) :=
  ⟨List.forall_mem_append.mpr ⟨hcs, List.forall_mem_cons.mpr ⟨hmark, hds⟩⟩,
    mark, List.mem_append_right _ List.mem_cons_self, hwhole⟩

theorem Broken.sign {cs : List Char} (h : Broken cs) : Broken ('-' :: cs) := by
  obtain ⟨c, hc, hmark⟩ := h.mark
  exact ⟨List.forall_mem_cons.mpr ⟨by decide, h.numeric⟩, c, List.mem_cons_of_mem _ hc, hmark⟩

theorem isWhole_toString (e : ℤ) : ∀ c ∈ (toString e).toList, isWhole c = true := by
  have hdigits : ∀ n : Nat, ∀ c ∈ (toString n).toList, isWhole c = true := fun n c hc => by
    simp [isWhole, (digits_toString n).2 c hc]
  cases e with
  | ofNat n => exact hdigits n
  | negSucc n =>
      rw [toList_toString_negSucc]
      exact List.forall_mem_cons.mpr ⟨by decide, hdigits (n + 1)⟩

/-- However a decimal is written, there is a point or an exponent in it. -/
theorem Decimal.Written.broken {ds cs : List Char} {exponent : ℤ} (h : Written ds exponent cs)
    (hds : Digits ds) : Broken cs := by
  have hnumeric : ∀ c ∈ ds, isNumeric c = true := fun c hc => isNumeric_of_isDigit (hds c hc)
  have hzeros : ∀ n, ∀ c ∈ List.replicate n '0', isNumeric c = true := fun n c hc =>
    isNumeric_of_isDigit (digits_replicate n c hc)
  have hpoint : isNumeric '.' = true ∧ isWhole '.' = false := by decide
  cases h with
  | integral =>
      exact .between (List.forall_mem_append.mpr ⟨hnumeric, hzeros _⟩) (hzeros 1) hpoint.1 hpoint.2
  | pointed =>
      exact .between (fun c hc => hnumeric c (List.mem_of_mem_take hc))
        (fun c hc => hnumeric c (List.mem_of_mem_drop hc)) hpoint.1 hpoint.2
  | fractional =>
      exact .between (hzeros 1) (List.forall_mem_append.mpr ⟨hzeros _, hnumeric⟩) hpoint.1 hpoint.2
  | @scientific c rest leading hsplit =>
      subst hsplit
      obtain ⟨hc, hrest⟩ := List.forall_mem_cons.mp hnumeric
      refine .between (List.forall_mem_append.mpr ⟨List.forall_mem_singleton.mpr hc, ?_⟩)
        (fun c hc => isNumeric_of_isWhole (isWhole_toString leading c hc)) (by decide) (by decide)
      split
      · exact List.forall_mem_nil _
      · exact List.forall_mem_cons.mpr ⟨hpoint.1, hrest⟩

theorem broken_magnitudeText (n : Nat) : Broken (magnitudeText n).toList := by
  unfold magnitudeText
  repeat' split
  · exact ⟨List.all_eq_true.mp rfl, 'N', by decide⟩
  · exact ⟨List.all_eq_true.mp rfl, 'i', by decide⟩
  · exact ⟨List.all_eq_true.mp rfl, '.', by decide⟩
  · exact (Decimal.written_text _).broken (digits_toString _).2

theorem broken_floatText (x : Float32) : Broken (floatText x).toList := by
  rw [(floatText_eq x).1, String.toList_append]
  rcases signText_eq x with ⟨hsign, _⟩ | ⟨hsign, _⟩ <;> rw [hsign]
  · exact broken_magnitudeText _
  · exact (broken_magnitudeText _).sign

/-! ## Values -/

/-- A text that does not go over the end of a line. -/
def OneLine (cs : List Char) : Prop := ∀ c ∈ cs, (c != '\n') = true

theorem oneLine_of_isNumeric {cs : List Char} (h : ∀ c ∈ cs, isNumeric c = true) : OneLine cs := by
  intro c hc
  refine bne_iff_ne.mpr fun hline => ?_
  rw [hline] at hc
  exact absurd (h _ hc) (by decide)

theorem OneLine.append {cs ds : List Char} (h : OneLine cs) (h' : OneLine ds) : OneLine (cs ++ ds) :=
  List.forall_mem_append.mpr ⟨h, h'⟩

theorem OneLine.cons {c : Char} {cs : List Char} (hc : c ≠ '\n') (h : OneLine cs) : OneLine (c :: cs) :=
  List.forall_mem_cons.mpr ⟨bne_iff_ne.mpr hc, h⟩

theorem oneLine_nil : OneLine [] := List.forall_mem_nil _

theorem oneLine_quoteChar (c : Char) : OneLine (quoteChar c) := by
  rcases quoteChar_cases c with ⟨hc, _, hne⟩ | ⟨letter, hc, _, hne, _⟩ | hc <;> rw [hc]
  · exact oneLine_nil.cons hne
  · exact (oneLine_nil.cons hne).cons (by decide)
  · have hdigits : OneLine (Nat.toDigits 16 c.toNat) := fun d hd =>
      bne_iff_ne.mpr fun hline => absurd (hline ▸ isHexDigit_toDigits _ d hd) (by decide)
    have hcode : OneLine (codeText c) := (hdigits.append (oneLine_nil.cons (by decide))).cons (by decide)
    exact (hcode.cons (by decide)).cons (by decide)

theorem oneLine_quote (s : String) : OneLine (quote s).toList := by
  have hbody : OneLine (s.toList.flatMap quoteChar) := by
    intro c hc
    obtain ⟨d, _, hd⟩ := List.mem_flatMap.mp hc
    exact oneLine_quoteChar d c hd
  simp only [quote, String.toList_append, String.toList_ofList]
  exact (OneLine.append (oneLine_nil.cons (by decide)) hbody).append (oneLine_nil.cons (by decide))

namespace Value

/-- The text of a value stays on its line. -/
theorem oneLine_text (v : Value) : OneLine v.text.toList := by
  cases v with
  | int v => exact oneLine_of_isNumeric fun c hc => isNumeric_of_isWhole (isWhole_toString _ c hc)
  | float x => exact oneLine_of_isNumeric (broken_floatText x).numeric
  | string s => exact oneLine_quote s

/-- A text in quotes is not the text of a number. -/
theorem quote_ne_of_isNumeric {s t : String} (h : ∀ c ∈ t.toList, isNumeric c = true) : quote s ≠ t := by
  intro heq
  have hmem : '"' ∈ (quote s).toList := by simp [quote]
  exact absurd (h _ (heq ▸ hmem)) (by decide)

theorem toString_ne_floatText (e : ℤ) (x : Float32) : toString e ≠ floatText x := by
  intro heq
  obtain ⟨c, hc, hmark⟩ := (broken_floatText x).mark
  rw [isWhole_toString e c (heq ▸ hc)] at hmark
  cases hmark

/-- **The text of a value tells which value it is**, and of which sort. -/
theorem text_injective : Function.Injective text := by
  have hwhole : ∀ e : ℤ, ∀ c ∈ (toString e).toList, isNumeric c = true := fun e c hc =>
    isNumeric_of_isWhole (isWhole_toString e c hc)
  intro v v' h
  cases v with
  | int v =>
      cases v' with
      | int v' =>
          have hvalue := congrArg (fun t => signedValue? t.toList) h
          simp only [text, signedValue?_toString, Option.some.injEq] at hvalue
          rw [Int32.toInt_inj.mp hvalue]
      | float x' => exact absurd h (toString_ne_floatText _ x')
      | string s' => exact absurd h.symm (quote_ne_of_isNumeric (hwhole _))
  | float x =>
      cases v' with
      | int v' => exact absurd h.symm (toString_ne_floatText _ x)
      | float x' => rw [floatText_injective h]
      | string s' => exact absurd h.symm (quote_ne_of_isNumeric (broken_floatText x).numeric)
  | string s =>
      cases v' with
      | int v' => exact absurd h (quote_ne_of_isNumeric (hwhole _))
      | float x' => exact absurd h (quote_ne_of_isNumeric (broken_floatText x').numeric)
      | string s' => rw [quote_injective h]

end Value

end Jaf
