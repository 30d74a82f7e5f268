import WorkspaceTrust.Decimal.Binary64

/-!
# The shortest decimal that reads back

The reals that round to a given double form an interval around it: from
halfway to its lower neighbour to halfway to its upper neighbour, ends
included exactly when the significand is even. `Binary64.shortest` is
the decimal in that interval with the fewest digits, and among those
the nearest to the double (of two equally near ones, the even one).

For each number of digits the two multiples of the digit grid on either
side of the double are tried; a grid that has any point in the interval
has one of these two.
-/

namespace WorkspaceTrust

/-- The value `digits * 10 ^ exponent`. -/
structure Decimal where
  digits : Nat
  exponent : Int
deriving DecidableEq, Repr

namespace Decimal

/-- Removes trailing zeros from the digits; `fuel` bounds their number. -/
def strip : Nat → Decimal → Decimal
  | 0, d => d
  | fuel + 1, d =>
      if d.digits ≠ 0 ∧ d.digits % 10 = 0 then strip fuel ⟨d.digits / 10, d.exponent + 1⟩ else d

end Decimal

namespace Binary64

/-- Whether `a * 10 ^ e ≤ b * 2 ^ q`, decided on naturals. -/
def decimalLe (a : Nat) (e : Int) (b : Nat) (q : Int) : Bool :=
  a * Nat.pow 10 e.toNat * Nat.pow 2 (-q).toNat ≤ b * Nat.pow 2 q.toNat * Nat.pow 10 (-e).toNat

def decimalLt (a : Nat) (e : Int) (b : Nat) (q : Int) : Bool :=
  a * Nat.pow 10 e.toNat * Nat.pow 2 (-q).toNat < b * Nat.pow 2 q.toNat * Nat.pow 10 (-e).toNat

/-- Whether the decimal rounds to the magnitude of `x`. Below a power of two
the neighbour is only half as far away. -/
def readsBack (x : Binary64) (d : Decimal) : Bool :=
  let m := x.significand
  let q := x.exponent - 2
  let low := if x.fraction = 0 ∧ 1 < x.exponentField then 4 * m - 1 else 4 * m - 2
  let high := 4 * m + 2
  if m % 2 = 0 then
    !decimalLt d.digits d.exponent low q && decimalLe d.digits d.exponent high q
  else
    !decimalLe d.digits d.exponent low q && decimalLt d.digits d.exponent high q

/-- The least `k` with the magnitude of `x` below `10 ^ k`. The estimate
from the binary logarithm is at most two too small. -/
def decimalScale (x : Binary64) : Int :=
  let estimate := ((x.significand.log2 : Int) + x.exponent) * 1233 / 4096
  let below (k : Int) : Bool := !decimalLe 1 k x.significand x.exponent
  if below estimate then estimate
  else if below (estimate + 1) then estimate + 1 else estimate + 2

/-- The decimal with `n` digits that reads back, the nearer one if both
neighbours on the grid do. -/
def withDigits (x : Binary64) (n : Nat) : Option Decimal :=
  let e := x.decimalScale - n
  let num := x.significand * Nat.pow 2 x.exponent.toNat * Nat.pow 10 (-e).toNat
  let den := Nat.pow 10 e.toNat * Nat.pow 2 (-x.exponent).toNat
  let below := num / den
  match x.readsBack ⟨below, e⟩, x.readsBack ⟨below + 1, e⟩ with
  | false, false => none
  | true, false => some ⟨below, e⟩
  | false, true => some ⟨below + 1, e⟩
  | true, true => some ⟨roundDiv num den, e⟩

/-- The shortest decimal that reads back as the magnitude of a finite number. -/
def shortest (x : Binary64) : Decimal :=
  match ((List.range 17).map (· + 1)).findSome? x.withDigits with
  | some d => d.strip 18
  | none => ⟨x.significand * Nat.pow 2 x.exponent.toNat * Nat.pow 5 (-x.exponent).toNat,
      min x.exponent 0⟩

/-- How numbers with an exponent are written: with or without a plus sign
before a positive exponent. -/
structure Notation where
  plusSign : Bool
deriving DecidableEq, Repr

/-- Writes a finite number with its shortest digits. Numbers from 10^-5 up to
10^16 are positional and always have a point; the others have one digit
before the point, and no point if that is the only one. -/
def write (style : Notation) (x : Binary64) : String :=
  let sign := if x.negative then "-" else ""
  if x.isZero then sign ++ "0.0"
  else
    let d := x.shortest
    let digits := Nat.toDigits 10 d.digits
    let e : Int := d.exponent + digits.length - 1
    let body : List Char :=
      if 0 ≤ d.exponent ∧ e < 16 then
        digits ++ List.replicate d.exponent.toNat '0' ++ ['.', '0']
      else if 0 ≤ e ∧ e < 16 then
        digits.take (e.toNat + 1) ++ '.' :: digits.drop (e.toNat + 1)
      else if -5 ≤ e ∧ e < 0 then
        '0' :: '.' :: List.replicate (-e - 1).toNat '0' ++ digits
      else
        let mantissa := digits.take 1 ++ (if digits.length = 1 then [] else '.' :: digits.drop 1)
        let mark := if e < 0 then ['e', '-'] else if style.plusSign then ['e', '+'] else ['e']
        mantissa ++ mark ++ Nat.toDigits 10 e.natAbs
    sign ++ String.ofList body

end Binary64

end WorkspaceTrust
