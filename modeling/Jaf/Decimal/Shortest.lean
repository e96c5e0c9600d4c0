import Jaf.Decimal

/-!
# The shortest text of a single-precision number

A finite number is written with the fewest digits that read back as the same number, and of those
with the digits nearest to it, the greater on a tie. The reals that read back as `m · 2 ^ q` form an
interval around it whose ends belong to it exactly when `m` is even; it reaches half a unit up, and
half a unit down except just above a power of two, where the numbers below lie twice as close. So
one walks the grids of multiples of `10 ^ p` from coarse to fine and takes the first grid with a
point in the interval: only the two neighbours of the number on a grid can be the nearest such point.
All of it is exact arithmetic on natural numbers.
-/

namespace Jaf

/-- A positive number `mantissa · 2 ^ exponent`, and whether those below lie twice as close. -/
structure Binary where
  mantissa : Nat
  exponent : Int
  close : Bool
deriving DecidableEq, Repr

namespace Binary

/-- The magnitude of a finite single-precision number, from its bits. -/
def ofBits (bits : UInt32) : Binary :=
  let biased := (bits.toNat >>> 23) % 256
  let fraction := bits.toNat % 0x800000
  if biased = 0 then ⟨fraction, -149, false⟩
  else ⟨fraction + 0x800000, (biased : Int) - 150, fraction = 0 ∧ 1 < biased⟩

/-- The multiple of `10 ^ p` nearest to the number among those that read back as it. -/
def onGrid? (b : Binary) (p : Int) : Option Nat :=
  -- in quarters of a unit, the number and the ends of its interval are whole
  let q := b.exponent - 2
  let number := 4 * b.mantissa
  let low := number - (if b.close then 1 else 2)
  let high := number + 2
  -- `x` quarters are `x * up / down` multiples of `10 ^ p`
  let up := Nat.pow 2 q.toNat * Nat.pow 10 (-p).toNat
  let down := Nat.pow 10 p.toNat * Nat.pow 2 (-q).toNat
  let inside (d : Nat) : Bool :=
    if b.mantissa % 2 = 0 then low * up ≤ d * down && d * down ≤ high * up
    else low * up < d * down && d * down < high * up
  let below := number * up / down
  match inside below, inside (below + 1) with
  | true, true => if 2 * number * up < (2 * below + 1) * down then some below else some (below + 1)
  | true, false => some below
  | false, true => some (below + 1)
  | false, false => none

/-- The shortest decimal that reads back as the number; single precision lies well inside the grids. -/
def shortest (b : Binary) : Decimal :=
  let found := (List.range 100).findSome? fun (n : Nat) =>
    (b.onGrid? (40 - n)).map fun d => (⟨d, 40 - n⟩ : Decimal)
  found.getD ⟨0, 0⟩

end Binary

namespace Decimal

/-- A text of zeros. -/
def zeros (n : Nat) : String := String.ofList (List.replicate n '0')

/--
A positive decimal is written out from `0.0001` up to below `10 ^ 16`, with at least one digit after
the point, and with an exponent of ten otherwise.
-/
def text (d : Decimal) : String :=
  let ds := (toString d.digits).toList
  let leading := d.exponent + ds.length - 1
  if -4 ≤ leading ∧ leading < 16 then
    let after := (-d.exponent).toNat
    if after = 0 then String.ofList ds ++ zeros d.exponent.toNat ++ ".0"
    else if after < ds.length then
      String.ofList (ds.take (ds.length - after)) ++ "." ++ String.ofList (ds.drop (ds.length - after))
    else "0." ++ zeros (after - ds.length) ++ String.ofList ds
  else
    let rest := ds.drop 1
    String.ofList (ds.take 1) ++ (if rest = [] then "" else "." ++ String.ofList rest)
      ++ "e" ++ toString leading

end Decimal

/-- The text of a single-precision number. -/
def floatText (x : Float32) : String :=
  let sign := if x.toBits < 0x80000000 then "" else "-"
  if x.isNaN then "NaN"
  else if x.isInf then sign ++ "inf"
  else if x == 0 then sign ++ "0.0"
  else sign ++ (Binary.ofBits x.toBits).shortest.text

end Jaf
