import Mustache.Decimal.Shortest

/-!
# Floating-Point Text

How a double is written. Its shortest decimal is written with a point and at
least one digit after it, or with an exponent when it is too large or too
small for that. The styles differ in the exponent and in the words for what is
no finite number.

## Main definitions

* `Style`: The choices of a format.
* `Style.json`, `Style.yaml`: The choices of two formats.
* `positional`, `scientific`: The two ways to write a decimal.
* `Style.render`: The text of a double.
-/

namespace Mustache

namespace Decimal

/-- How a format writes doubles. -/
structure Style where
  /-- The least and the greatest exponent of the leading digit with which a
      number is written without exponent. -/
  least : Int
  greatest : Int
  /-- What stands before the digits of a positive exponent. -/
  plus : String
  infinity : String
  negativeInfinity : String
  notANumber : String

/-- JSON marks positive exponents and has no words for infinity. -/
def Style.json : Style :=
  ⟨-5, 15, "+", "null", "null", "null"⟩

/-- YAML leaves positive exponents unmarked. -/
def Style.yaml : Style :=
  ⟨-5, 15, "", ".inf", "-.inf", ".nan"⟩

/-- The decimal whose digits are `digits` and whose leading digit has the given
    exponent, with a point and at least one digit after it. -/
def positional (digits : List Char) (exponent : Int) : List Char :=
  if exponent < 0 then
    ['0', '.'] ++ List.replicate (-exponent - 1).toNat '0' ++ digits
  else
    let whole := exponent.toNat + 1
    let fraction := digits.drop whole
    digits.take whole ++ List.replicate (whole - digits.length) '0' ++ ['.'] ++
      if fraction.isEmpty then ['0'] else fraction

/-- The same decimal as one digit, the other digits after a point if there are
    any, and the exponent. -/
def scientific (plus : String) (digits : List Char) (exponent : Int) : List Char :=
  let fraction := digits.drop 1
  digits.take 1 ++ (if fraction.isEmpty then [] else '.' :: fraction) ++ ['e'] ++
    (if exponent < 0 then ['-'] else plus.toList) ++ Nat.toDigits 10 exponent.natAbs

/-- The magnitude of a double in a style. -/
def Style.magnitude (style : Style) (b : Binary) : List Char :=
  if b.mantissa = 0 then ['0', '.', '0']
  else
    let (n, power) := b.shortest
    let digits := Nat.toDigits 10 n
    let exponent := (digits.length : Int) - 1 + power
    if style.least ≤ exponent ∧ exponent ≤ style.greatest then positional digits exponent
    else scientific style.plus digits exponent

/-- The double carries a minus sign, which zero may do too. -/
def isNegative (x : Float) : Bool :=
  x.toBits.toNat / Nat.pow 2 63 = 1

/-- The text of a double in a style. -/
def Style.render (style : Style) (x : Float) : String :=
  match Binary.ofFloat? x with
  | none =>
    if x.isNaN then style.notANumber
    else if isNegative x then style.negativeInfinity
    else style.infinity
  | some b => String.ofList ((if isNegative x then ['-'] else []) ++ style.magnitude b)

end Decimal

end Mustache
