/-!
# Decimal numbers

A decimal is a whole number times a power of ten. Literals are read as decimals, and a decimal is
rounded once, to the nearest single-precision number, ties going to the even one. The exponent of a
literal can be enormous, so a decimal far outside the range of single precision is settled by its
size alone before any power of ten is computed.
-/

namespace Jaf

/-- The number `digits · 10 ^ exponent`. -/
structure Decimal where
  digits : Nat
  exponent : Int
deriving DecidableEq, Repr

/-- The value of a digit to any base up to sixteen; letters count from ten in either case. -/
def digitValue (c : Char) : Nat :=
  if c.isDigit then c.toNat - '0'.toNat
  else if c.isLower then c.toNat - 'a'.toNat + 10
  else c.toNat - 'A'.toNat + 10

/-- The value of digits written with the most significant one first. -/
def digitsValue (base : Nat) (cs : List Char) : Nat :=
  cs.foldl (fun n c => base * n + digitValue c) 0

/-- A whole number with a sign or none in front; at least one digit must stand there. -/
def signedValue? (cs : List Char) : Option Int :=
  let unsigned (cs : List Char) : Option Nat :=
    if cs ≠ [] ∧ cs.all Char.isDigit then some (digitsValue 10 cs) else none
  match cs with
  | '-' :: cs => (unsigned cs).map fun n => -(n : Int)
  | '+' :: cs => (unsigned cs).map fun n => (n : Int)
  | cs => (unsigned cs).map fun n => (n : Int)

namespace Decimal

/-- Reads digits, an optional point with digits on either side of it, and an optional exponent. -/
def ofChars? (cs : List Char) : Option Decimal :=
  let whole := cs.takeWhile Char.isDigit
  let (fraction, rest) := match cs.dropWhile Char.isDigit with
    | '.' :: cs => (cs.takeWhile Char.isDigit, cs.dropWhile Char.isDigit)
    | cs => ([], cs)
  let scaled (e : Int) : Option Decimal :=
    if whole ++ fraction = [] then none
    else some ⟨digitsValue 10 (whole ++ fraction), e - fraction.length⟩
  match rest with
  | [] => scaled 0
  | 'e' :: cs | 'E' :: cs => signedValue? cs >>= scaled
  | _ :: _ => none

/-- The single-precision number nearest to a decimal, and infinity beyond the greatest of them. -/
def toFloat32 (d : Decimal) : Float32 :=
  -- the decimal is below `10 ^ size` and not below a tenth of it
  let size := d.exponent + (toString d.digits).length
  if d.digits = 0 ∨ size < -50 then 0
  else if 50 < size then 1 / 0
  else .ofScientific d.digits (d.exponent < 0) d.exponent.natAbs

end Decimal

/-! ## Whole numbers and single precision -/

/-- The single-precision number nearest to an integer. -/
def nearestFloat (v : Int32) : Float32 :=
  if v < 0 then -(-v).toUInt32.toFloat32 else v.toUInt32.toFloat32

/--
The integer part of a single-precision number, the nearest limit if that is out of range, and 0 if
it is not a number.
-/
def truncateFloat (x : Float32) : Int32 :=
  let size := if x < 0 then (-x).toUInt32 else x.toUInt32
  let fits := size < 0x80000000
  if x < 0 then if fits then -size.toInt32 else Int32.minValue
  else if fits then size.toInt32 else Int32.maxValue

/-- How two single-precision numbers compare; neither is in order with one that is not a number. -/
def compareFloat? (a b : Float32) : Option Ordering :=
  if a < b then some .lt
  else if a == b then some .eq
  else if b < a then some .gt
  else none

end Jaf
