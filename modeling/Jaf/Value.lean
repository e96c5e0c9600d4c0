import Jaf.Decimal.Shortest
import Jaf.Text.Quoted

/-!
# Values

The values that literals write and that globals can start with.
-/

namespace Jaf

/-- A 32-bit integer, a single-precision number or a string. -/
inductive Value where
  | int (value : Int32)
  | float (value : Float32)
  | string (value : String)
deriving DecidableEq

namespace Value

/-- The truth values are the integers 1 and 0. -/
def ofBool (b : Bool) : Value := int (if b then 1 else 0)

/-- The value as a float, if it is a number. -/
def float? : Value → Option Float32
  | int v => some (nearestFloat v)
  | float v => some v
  | string _ => none

/-- A value as dumps and the log show it. -/
def text : Value → String
  | int v => toString v.toInt
  | float v => floatText v
  | string v => quote v

end Value

end Jaf
