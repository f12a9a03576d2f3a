import Mustache.Decimal.Style

/-!
# Numbers

The numbers of JSON and YAML data. Whole numbers are exact; all others are
doubles. Data formats agree on how a whole number is written and differ in how
a double is.

## Main definitions

* `Number`: A number of a data format.
* `Number.render`: Its text in a style.
-/

namespace Mustache

/-- A number of a data format. -/
inductive Number
  | int (n : Int)
  | float (x : Float)

namespace Number

/-- The text of a number. -/
def render (style : Decimal.Style) : Number → String
  | int n => Int.repr n
  | float x => style.render x

/-- The numbers are the same, where what is no number counts as itself. -/
def same : Number → Number → Bool
  | int m, int n => m == n
  | float x, float y => x == y || (x.isNaN && y.isNaN)
  | _, _ => false

end Number

end Mustache
