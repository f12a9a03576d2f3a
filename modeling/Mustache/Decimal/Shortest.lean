/-!
# The Shortest Decimal of a Binary Number

A finite double stands for one binary number, but every real number close
enough rounds to it. Among the decimals that do, one with the fewest digits is
chosen, and of those the nearest.

A decimal with few digits lies on a coarse grid of multiples of a power of
ten. So the grids are tried from coarse to fine. On each of them only the two
neighbours of the number can be close enough, and all comparisons are made
between natural numbers.

## Main definitions

* `Binary`: A positive binary number and its distance to its neighbours.
* `Binary.ofFloat?`: The magnitude of a double.
* `Binary.onGrid?`: The nearest multiple of a power of ten that rounds to the
  number.
* `Binary.shortest`: The shortest decimal that rounds to the number.
-/

namespace Mustache

namespace Decimal

/-- The number `mantissa * 2 ^ exponent` among the numbers of the same
    precision. The number after it is `2 ^ exponent` away, and so is the one
    before it unless the number is the first with its exponent, where the
    distance is half of that. -/
structure Binary where
  mantissa : Nat
  exponent : Int
  isFirst : Bool
deriving DecidableEq, Repr

namespace Binary

/-- The magnitude of a double, or `none` for infinities and for what is not a
    number. -/
def ofFloat? (x : Float) : Option Binary :=
  let bits : Nat := x.toBits.toNat
  let unit := Nat.pow 2 52
  let fraction := bits % unit
  let field := bits / unit % Nat.pow 2 11
  if field + 1 = Nat.pow 2 11 then none
  else if field = 0 then some ⟨fraction, -1074, false⟩
  else some ⟨unit + fraction, (field : Int) - 1075, fraction = 0 && field > 1⟩

/-- The factor that turns quarters of the distance between neighbours into
    multiples of `10 ^ power`, as a fraction. -/
def scale (b : Binary) (power : Int) : Nat × Nat :=
  (Nat.pow 2 (b.exponent - 2).toNat * Nat.pow 10 (-power).toNat,
   Nat.pow 2 (2 - b.exponent).toNat * Nat.pow 10 power.toNat)

/-- The multiple `n * 10 ^ power` rounds to the number: it lies no further away
    than the middle between the number and its neighbour. The middle itself
    rounds to the even mantissa. -/
def accepts (b : Binary) (power : Int) (n : Nat) : Bool :=
  let (num, den) := b.scale power
  let lower := (4 * b.mantissa - if b.isFirst then 1 else 2) * num
  let upper := (4 * b.mantissa + 2) * num
  if b.mantissa % 2 = 0 then lower ≤ n * den && n * den ≤ upper
  else lower < n * den && n * den < upper

/-- The factor `n` of the multiple `n * 10 ^ power` that rounds to the number
    and is nearest to it. Of two equally near the even one is taken. -/
def onGrid? (b : Binary) (power : Int) : Option Nat :=
  let (num, den) := b.scale power
  let below := 4 * b.mantissa * num / den
  let twice := 2 * (4 * b.mantissa * num)
  match b.accepts power below, b.accepts power (below + 1) with
  | false, false => none
  | true, false => some below
  | false, true => some (below + 1)
  | true, true =>
    let middle := (2 * below + 1) * den
    if twice < middle || (twice = middle && below % 2 = 0) then some below
    else some (below + 1)

/-- The powers of ten whose multiples are tried for a double, coarse ones
    first. -/
def powers : List Int :=
  (List.range 634).map fun (i : Nat) => (309 - i : Int)

/-- The shortest decimal `n * 10 ^ power` that rounds to the number, as the pair
    of `n` and `power`. -/
def shortest (b : Binary) : Nat × Int :=
  (powers.findSome? fun power => (b.onGrid? power).map (·, power)).getD (0, 0)

end Binary

end Decimal

end Mustache
