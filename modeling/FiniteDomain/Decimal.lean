/-!
Quotients written as decimals.

A quotient is rounded to the nearest number with a significand of 53 bits, a
half going to the even neighbour, and that number is written with the fewest
digits from which it can be told; of those, the nearest.  The text has no
exponent, and no point behind a whole number.

* `Binary`, `Binary.nearest`: numbers with a significand of 53 bits;
* `Binary.Reads`: the quotients that are rounded to a given one;
* `Decimal`, `Decimal.shortest`: the digits;
* `Decimal.toString`, `Decimal.ofQuotient`: the text.
-/

namespace FiniteDomain

/-- A number `significand * 2 ^ exponent`; the significand has 53 bits. -/
structure Binary where
  significand : Nat
  exponent : Int
  deriving DecidableEq, Repr

namespace Binary

/-- The least significand of 53 bits. -/
def least : Nat := 1 <<< 52

/-- The number. -/
def toRat (b : Binary) : Rat := (b.significand : Rat) * (2 : Rat) ^ b.exponent

/-- The nearest natural number; a half goes to the even neighbour. -/
def roundEven (q : Rat) : Nat :=
  let below := q.floor.toNat
  let rest := q - (below : Rat)
  if rest < 1 / 2 then below
  else if 1 / 2 < rest then below + 1
  else if below % 2 = 0 then below
  else below + 1

/-- The exponent that gives a positive quotient a significand of 53 bits. -/
def exponentOf (q : Rat) : Int :=
  let e : Int := (q.num.toNat.log2 : Int) - (q.den.log2 : Int) - 52
  if q / (2 : Rat) ^ e < (2 : Rat) ^ (52 : Int) then e - 1 else e

/-- The nearest number to a positive quotient. -/
def nearest (q : Rat) : Binary :=
  let e := exponentOf q
  let m := roundEven (q / (2 : Rat) ^ e)
  if m = 2 * least then ⟨least, e + 1⟩ else ⟨m, e⟩

/-- The middle between the number and the next lower one, which is nearer when
the exponent changes there. -/
def low (b : Binary) : Rat :=
  let gap : Rat := if b.significand = least then 1 / 4 else 1 / 2
  ((b.significand : Rat) - gap) * (2 : Rat) ^ b.exponent

/-- The middle between the number and the next higher one. -/
def high (b : Binary) : Rat := ((b.significand : Rat) + 1 / 2) * (2 : Rat) ^ b.exponent

/-- Whether a quotient is rounded to the number: it lies between the two middles,
which count if the significand is even. -/
def Reads (b : Binary) (q : Rat) : Prop :=
  if b.significand % 2 = 0 then b.low ≤ q ∧ q ≤ b.high else b.low < q ∧ q < b.high

instance (b : Binary) (q : Rat) : Decidable (b.Reads q) := by
  unfold Reads
  infer_instance

end Binary

/-- A number `digits * 10 ^ exponent`. -/
structure Decimal where
  digits : Nat
  exponent : Int
  deriving DecidableEq, Repr

namespace Decimal

/-- The number. -/
def toRat (d : Decimal) : Rat := (d.digits : Rat) * (10 : Rat) ^ d.exponent

/-- Of the two multiples of `10 ^ k` next to the number, the nearer one that is
rounded to it. -/
def onGrid? (b : Binary) (k : Int) : Option Decimal :=
  let below := (b.toRat / (10 : Rat) ^ k).floor.toNat
  let lower : Decimal := ⟨below, k⟩
  let upper : Decimal := ⟨below + 1, k⟩
  match decide (b.Reads lower.toRat), decide (b.Reads upper.toRat) with
  | true, true =>
    some (if b.toRat - lower.toRat ≤ upper.toRat - b.toRat then lower else upper)
  | true, false => some lower
  | false, true => some upper
  | false, false => none

/-- The first hit on the grids from `10 ^ k` downwards. -/
def search (b : Binary) : Nat → Int → Decimal
  | 0, k => ⟨0, k⟩
  | steps + 1, k => (onGrid? b k).getD (search b steps (k - 1))

/-- The fewest digits from which the number can be told. -/
def shortest (b : Binary) : Decimal :=
  let top : Int := (toString b.toRat.floor).length
  search b 400 top

/-- The digits without exponent, and without a point behind a whole number. -/
protected def toString (d : Decimal) : String :=
  let text := (toString d.digits).toList
  match d.exponent with
  | .ofNat n => String.ofList (text ++ List.replicate n '0')
  | .negSucc n =>
    let places := n + 1
    let padded := List.replicate (places + 1 - text.length) '0' ++ text
    let whole := padded.take (padded.length - places)
    let part := padded.drop (padded.length - places)
    String.ofList whole ++ "." ++ String.ofList part

/-- A quotient of natural numbers as text; with the divisor 0 it is 0. -/
def ofQuotient (n d : Nat) : String :=
  if n = 0 ∨ d = 0 then "0" else (shortest (.nearest (mkRat n d))).toString

end Decimal

end FiniteDomain
