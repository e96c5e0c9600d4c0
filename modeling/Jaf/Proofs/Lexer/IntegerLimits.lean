import Jaf.Proofs.Lexer.Literals

/-!
# Integers and their limits

An integer is a run of digits of any length, and the parser has to tell those that fit in 32 bits. Digits
alone denote their value up to the greatest integer, and hexadecimal digits a bit pattern. A sign is an
operator, so the least integer would need an operand that is out of range; the parser looks for it by its
text. That text is one of many with the same value, since zeros may stand in front of digits: with a zero in
front, the least integer is refused.
-/

namespace Jaf

open Spelling

/-! ## Scanning -/

theorem Token.Kind.spelled_int {ds : List Char} (hne : ds ≠ []) (hds : ∀ c ∈ ds, c.isDigit = true) :
    (int (String.ofList ds)).Spelled ds where
  pattern := mem_int.mpr ⟨hne, hds⟩
  payload text htext := by
    cases htext
    rfl
  free text htext := by cases htext

theorem Token.Kind.spelled_hex {x : Char} {ds : List Char} (hx : x = 'x' ∨ x = 'X') (hne : ds ≠ [])
    (hds : ∀ c ∈ ds, isHexDigit c = true) :
    (hex (String.ofList ('0' :: x :: ds))).Spelled ('0' :: x :: ds) where
  pattern := mem_hex.mpr ⟨x, ds, hx, ⟨hne, hds⟩, rfl⟩
  payload text htext := by
    cases htext
    rfl
  free text htext := by cases htext

/-- No symbol goes on behind a minus sign with a digit. -/
theorem Symbol.ofChars?_minus {d : Char} (hd : d.isDigit = true) (cs : List Char) :
    Symbol.ofChars? ('-' :: d :: cs) = none := by
  cases h : Symbol.ofChars? ('-' :: d :: cs) with
  | none => rfl
  | some s =>
      have htext := Symbol.ofChars?_eq_some h
      cases s <;> cases htext <;> cases hd

theorem Cut.ofChars_minus {d : Char} (hd : d.isDigit = true) (cs : List Char) :
    Cut.ofChars ('-' :: d :: cs) = .token (.symbol .minus) 1 := by
  show Cut.symbol ('-' :: d :: cs) = _
  rw [Cut.symbol, List.take_succ_cons, List.take_succ_cons, Symbol.ofChars?_minus hd]
  rw [List.take_succ_cons, List.take_succ_cons, Symbol.ofChars?_minus hd]
  rfl

/-- A sign and digits are two tokens. -/
theorem Lexeme.scan_minus {ds : List Char} (hne : ds ≠ []) (hds : ∀ c ∈ ds, c.isDigit = true) :
    Lexeme.scan ("-" ++ String.ofList ds) =
      [.ok ⟨.symbol .minus, ⟨0, 1⟩⟩, .ok ⟨.int (String.ofList ds), ⟨1, 1 + byteLength ds⟩⟩] := by
  obtain ⟨d, cs, rfl⟩ := List.exists_cons_of_ne_nil hne
  have hcut := Cut.ofChars_minus (hds d List.mem_cons_self) cs
  have hsign := Lexeme.scanFrom_cut (w := ['-']) (List.cons_ne_nil _ _) hcut (cs.length + 1) 0
  have hdigits := Lexeme.scanFrom_spelled (Token.Kind.spelled_int hne hds) parted_nil cs.length 1
  rw [List.append_nil, Lexeme.scanFrom_nil] at hdigits
  have htext : ("-" ++ String.ofList (d :: cs)).toList = '-' :: d :: cs := by
    rw [String.toList_append, String.toList_ofList, String.toList_ofList]
    rfl
  rw [Lexeme.scan, htext]
  exact hsign.trans (congrArg (_ :: ·) hdigits)

/-! ## Parsing -/

section Parsing

open ExprParsers

/-- What a minus sign makes of a literal behind it. -/
def ExprParsers.negated (text : String) (p q : Span) : Except ParseError Expr :=
  if text = "2147483648" then .ok (.int ⟨p.merge q, some .int⟩ Int32.minValue)
  else ((numeric (.integerOutOfRange text) .int (intLiteral? text) (.ofSpan q)).mapError (.grammar q)).map
    fun e => .unary (.ofSpan (p.merge e.span)) .neg e

theorem ExprParsers.operand_minus (n : Nat) (text : String) (p q : Span) {last : Token}
    (hlast : last.kind = .eof) (names : List String) :
    (exprParsers (n + 1) : ExprParsers Reader).operand p .neg
        ⟨⟨.int text, q⟩, ⟨[], none, last⟩, p, names⟩ =
      (negated text p q).map (·, ⟨last, ⟨[], none, last⟩, q, names⟩) := by
  unfold negated
  by_cases htext : text = "2147483648"
  · subst htext
    rfl
  · have hkind : ¬(UnaryOp.neg = .neg ∧ Token.Kind.int text = .int "2147483648") :=
      fun h => htext (Token.Kind.int.inj h.2)
    have hunary : (exprParsers (n + 1) : ExprParsers Reader).unary
        ⟨⟨.int text, q⟩, ⟨[], none, last⟩, p, names⟩ = _ := unaryLayer_literal rfl last hlast p names
    rw [if_neg htext]
    trans ((exprParsers (n + 1)).unary >>= fun e => pure (.unary (.ofSpan (p.merge e.span)) .neg e) :
      Parser Reader Expr) ⟨⟨.int text, q⟩, ⟨[], none, last⟩, p, names⟩
    · exact congrFun (if_neg hkind) _
    · refine (bind_of_eq hunary).trans ?_
      cases numeric (.integerOutOfRange text) Expr.int (intLiteral? text) (.ofSpan q) <;> rfl

/-- A script that is a sign and digits. -/
theorem Parser.run_minus {source text : String} {p q : Span}
    (hscan : Lexeme.scan source = [.ok ⟨.symbol .minus, p⟩, .ok ⟨.int text, q⟩]) :
    Parser.expression.run (Reader.ofSource source) = negated text p q := by
  rw [Reader.ofSource, hscan]
  exact run_of_unaryLayer rfl rfl (operand_minus 2 text p q rfl [])

end Parsing

/-! ## Values -/

/-- The negative of an integer in range is in range. -/
theorem toInt_neg_ofNat {n : Nat} (h : n < 0x80000000) : (-Int32.ofNat n).toInt = -(n : Int) := by
  rw [Int32.toInt_neg, Int32.toInt_ofNat_of_lt h, Int.bmod_eq_of_le (by omega) (by omega)]

/-- The reading of a bit pattern in two's complement. -/
theorem toInt_toInt32_ofNat {n : Nat} (h : n < 0x100000000) :
    (UInt32.ofNat n).toInt32.toInt = if n < 0x80000000 then (n : Int) else n - 0x100000000 := by
  have hsize : n < UInt32.size := h
  have hbits : (UInt32.ofNat n).toInt32.toInt = ((UInt32.ofNat n).toNat : Int).bmod 0x100000000 :=
    BitVec.toInt_eq_toNat_bmod _
  rw [hbits, UInt32.toNat_ofNat_of_lt' hsize]
  unfold Int.bmod
  dsimp only
  split
  · split
    · omega
    · omega
  · split
    · omega
    · omega

namespace Parser

/-- A script is an integer literal of the given value. -/
def Denotes (source : String) (value : Int) : Prop :=
  ∃ n v, Parser.expression.run (Reader.ofSource source) = .ok (.int n v) ∧ v.toInt = value

/-- A script is an expression that folds to an integer literal of the given value. -/
def FoldsTo (source : String) (value : Int) : Prop :=
  ∃ e n v, Parser.expression.run (Reader.ofSource source) = .ok e ∧ e.fold = .int n v ∧ v.toInt = value

/-- A script is refused for an integer literal that is out of range. -/
def Refuses (source text : String) : Prop :=
  ∃ p, Parser.expression.run (Reader.ofSource source) = .error (.grammar p (.integerOutOfRange text))

section Digits

variable {ds : List Char} (hne : ds ≠ []) (hds : ∀ c ∈ ds, c.isDigit = true)

theorem intLiteral?_ofList (ds : List Char) : intLiteral? (String.ofList ds) =
    if digitsValue 10 ds < 0x80000000 then some (Int32.ofNat (digitsValue 10 ds)) else none := by
  rw [intLiteral?, String.toList_ofList]

include hne hds

theorem run_digits : Parser.expression.run (Reader.ofSource (String.ofList ds)) =
    (ExprParsers.numeric (.integerOutOfRange (String.ofList ds)) .int (intLiteral? (String.ofList ds))
      (.ofSpan ⟨0, (String.ofList ds).utf8ByteSize⟩)).mapError
        (.grammar ⟨0, (String.ofList ds).utf8ByteSize⟩) := by
  have hspelled : (Token.Kind.int (String.ofList ds)).Spelled (String.ofList ds).toList := by
    rw [String.toList_ofList]
    exact Token.Kind.spelled_int hne hds
  exact run_literal (Lexeme.scan_of_spelled hspelled) rfl

theorem denotes_digits (h : digitsValue 10 ds < 0x80000000) :
    Denotes (String.ofList ds) (digitsValue 10 ds) := by
  refine ⟨.ofSpan ⟨0, (String.ofList ds).utf8ByteSize⟩, Int32.ofNat (digitsValue 10 ds), ?_,
    Int32.toInt_ofNat_of_lt h⟩
  rw [run_digits hne hds, intLiteral?_ofList, if_pos h]
  rfl

theorem refuses_digits (h : ¬digitsValue 10 ds < 0x80000000) :
    Refuses (String.ofList ds) (String.ofList ds) := by
  refine ⟨⟨0, (String.ofList ds).utf8ByteSize⟩, ?_⟩
  rw [run_digits hne hds, intLiteral?_ofList, if_neg h]
  rfl

theorem run_negative : Parser.expression.run (Reader.ofSource ("-" ++ String.ofList ds)) =
    ExprParsers.negated (String.ofList ds) ⟨0, 1⟩ ⟨1, 1 + byteLength ds⟩ :=
  run_minus (Lexeme.scan_minus hne hds)

theorem foldsTo_negative (h : digitsValue 10 ds < 0x80000000) :
    FoldsTo ("-" ++ String.ofList ds) (-(digitsValue 10 ds : Int)) := by
  have htext : String.ofList ds ≠ "2147483648" := by
    intro heq
    have hlist := congrArg String.toList heq
    rw [String.toList_ofList] at hlist
    rw [hlist] at h
    exact absurd h (by decide)
  refine ⟨.unary (.ofSpan (Span.merge ⟨0, 1⟩ ⟨1, 1 + byteLength ds⟩)) .neg
    (.int (.ofSpan ⟨1, 1 + byteLength ds⟩) (Int32.ofNat (digitsValue 10 ds))), _, _, ?_, rfl,
    toInt_neg_ofNat h⟩
  rw [run_negative hne hds, ExprParsers.negated, if_neg htext, intLiteral?_ofList, if_pos h]
  rfl

theorem refuses_negative (h : ¬digitsValue 10 ds < 0x80000000) (htext : ds ≠ "2147483648".toList) :
    Refuses ("-" ++ String.ofList ds) (String.ofList ds) := by
  have htext' : String.ofList ds ≠ "2147483648" := by
    intro heq
    have hlist := congrArg String.toList heq
    rw [String.toList_ofList] at hlist
    exact htext hlist
  refine ⟨⟨1, 1 + byteLength ds⟩, ?_⟩
  rw [run_negative hne hds, ExprParsers.negated, if_neg htext', intLiteral?_ofList, if_neg h]
  rfl

end Digits

/-- The least integer is read by its text. -/
theorem foldsTo_least : FoldsTo ("-" ++ "2147483648") (-2147483648) := by
  have hrun : Parser.expression.run (Reader.ofSource ("-" ++ "2147483648")) =
      ExprParsers.negated "2147483648" ⟨0, 1⟩ ⟨1, 11⟩ :=
    run_negative (List.cons_ne_nil '2' "147483648".toList) (List.all_eq_true.mp rfl)
  exact ⟨_, _, Int32.minValue, hrun, rfl, rfl⟩

section Hex

variable {x : Char} {hs : List Char} (hx : x = 'x' ∨ x = 'X') (hne : hs ≠ [])
  (hhs : ∀ c ∈ hs, isHexDigit c = true)

theorem hexLiteral?_ofList (x : Char) (hs : List Char) : hexLiteral? (String.ofList ('0' :: x :: hs)) =
    if digitsValue 16 hs < 0x100000000 then some (UInt32.ofNat (digitsValue 16 hs)).toInt32 else none := by
  rw [hexLiteral?, String.toList_ofList]
  rfl

include hx hne hhs

theorem run_hex : Parser.expression.run (Reader.ofSource (String.ofList ('0' :: x :: hs))) =
    (ExprParsers.numeric (.integerOutOfRange (String.ofList ('0' :: x :: hs))) .int
      (hexLiteral? (String.ofList ('0' :: x :: hs)))
      (.ofSpan ⟨0, (String.ofList ('0' :: x :: hs)).utf8ByteSize⟩)).mapError
        (.grammar ⟨0, (String.ofList ('0' :: x :: hs)).utf8ByteSize⟩) := by
  have hspelled : (Token.Kind.hex (String.ofList ('0' :: x :: hs))).Spelled
      (String.ofList ('0' :: x :: hs)).toList := by
    rw [String.toList_ofList]
    exact Token.Kind.spelled_hex hx hne hhs
  exact run_literal (Lexeme.scan_of_spelled hspelled) rfl

theorem denotes_hex (h : digitsValue 16 hs < 0x100000000) : Denotes (String.ofList ('0' :: x :: hs))
    (if digitsValue 16 hs < 0x80000000 then (digitsValue 16 hs : Int)
      else digitsValue 16 hs - 0x100000000) := by
  refine ⟨.ofSpan ⟨0, (String.ofList ('0' :: x :: hs)).utf8ByteSize⟩,
    (UInt32.ofNat (digitsValue 16 hs)).toInt32, ?_, toInt_toInt32_ofNat h⟩
  rw [run_hex hx hne hhs, hexLiteral?_ofList, if_pos h]
  rfl

theorem refuses_hex (h : ¬digitsValue 16 hs < 0x100000000) :
    Refuses (String.ofList ('0' :: x :: hs)) (String.ofList ('0' :: x :: hs)) := by
  refine ⟨⟨0, (String.ofList ('0' :: x :: hs)).utf8ByteSize⟩, ?_⟩
  rw [run_hex hx hne hhs, hexLiteral?_ofList, if_neg h]
  rfl

end Hex

/--
**Integers denote their value up to the limits.** Digits denote their value if it is below `2 ^ 31`, and are
refused otherwise. With a minus sign in front they fold to the negative value under the same condition, and
so does the one text of the least integer without zeros in front; all else is refused. Hexadecimal digits
denote the bit pattern they spell out, read in two's complement, if it takes at most 32 bits, and are refused
otherwise.
-/
theorem integers_read (x : Char) (ds hs : List Char) (hne : ds ≠ []) (hds : ∀ c ∈ ds, c.isDigit = true)
    (hx : x = 'x' ∨ x = 'X') (hhex : hs ≠ []) (hhs : ∀ c ∈ hs, isHexDigit c = true) :
    ((digitsValue 10 ds < 0x80000000 → Denotes (String.ofList ds) (digitsValue 10 ds)) ∧
      (¬digitsValue 10 ds < 0x80000000 → Refuses (String.ofList ds) (String.ofList ds))) ∧
    ((digitsValue 10 ds < 0x80000000 ∨ ds = "2147483648".toList →
        FoldsTo ("-" ++ String.ofList ds) (-(digitsValue 10 ds : Int))) ∧
      (¬(digitsValue 10 ds < 0x80000000 ∨ ds = "2147483648".toList) →
        Refuses ("-" ++ String.ofList ds) (String.ofList ds))) ∧
    (digitsValue 16 hs < 0x100000000 → Denotes (String.ofList ('0' :: x :: hs))
        (if digitsValue 16 hs < 0x80000000 then (digitsValue 16 hs : Int)
          else digitsValue 16 hs - 0x100000000)) ∧
      (¬digitsValue 16 hs < 0x100000000 →
        Refuses (String.ofList ('0' :: x :: hs)) (String.ofList ('0' :: x :: hs))) := by
  refine ⟨⟨denotes_digits hne hds, refuses_digits hne hds⟩, ⟨?_, ?_⟩, denotes_hex hx hhex hhs,
    refuses_hex hx hhex hhs⟩
  · rintro (h | rfl)
    · exact foldsTo_negative hne hds h
    · exact foldsTo_least
  · intro h
    obtain ⟨hvalue, htext⟩ := not_or.mp h
    exact refuses_negative hne hds hvalue htext

theorem integers_read_limits :
    (Denotes "007" 7 ∧ FoldsTo "-007" (-7) ∧ Denotes "0xFFFFFFFF" (-1)) ∧
      (Refuses "2147483648" "2147483648" ∧ FoldsTo "-2147483648" (-2147483648) ∧
        Refuses "0X100000000" "0X100000000") ∧ Refuses "-2147483649" "2147483649" := by
  obtain ⟨hsmall, hsmallNegative, hpattern⟩ :=
    integers_read 'x' "007".toList "FFFFFFFF".toList (by decide) (List.all_eq_true.mp rfl) (.inl rfl)
      (by decide) (List.all_eq_true.mp rfl)
  obtain ⟨hlimit, hlimitNegative, hlong⟩ :=
    integers_read 'X' "2147483648".toList "100000000".toList (by decide) (List.all_eq_true.mp rfl)
      (.inr rfl) (by decide) (List.all_eq_true.mp rfl)
  obtain ⟨_, hbeyond, _⟩ :=
    integers_read 'x' "2147483649".toList "0".toList (by decide) (List.all_eq_true.mp rfl) (.inl rfl)
      (by decide) (List.all_eq_true.mp rfl)
  exact ⟨⟨hsmall.1 (by decide), hsmallNegative.1 (.inl (by decide)), hpattern.1 (by decide)⟩,
    ⟨hlimit.2 (by decide), hlimitNegative.1 (.inr rfl), hlong.2 (by decide)⟩, hbeyond.2 (by decide)⟩

/-- With a zero in front, the digits of the least integer have the same value, and are refused. -/
theorem leastInteger_refused :
    digitsValue 10 "02147483648".toList = 0x80000000 ∧ Refuses "-02147483648" "02147483648" ∧
      ¬FoldsTo "-02147483648" (-0x80000000) := by
  have hdigits : ∀ c ∈ "02147483648".toList, c.isDigit = true := List.all_eq_true.mp rfl
  have hrefuses : Refuses "-02147483648" "02147483648" :=
    refuses_negative (by decide) hdigits (by decide) (by decide)
  refine ⟨by decide, hrefuses, ?_⟩
  rintro ⟨e, n, v, hrun, _⟩
  obtain ⟨p, herror⟩ := hrefuses
  rw [herror] at hrun
  cases hrun

end Parser

end Jaf
