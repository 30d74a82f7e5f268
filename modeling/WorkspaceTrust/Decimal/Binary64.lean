/-!
# Binary64 numbers

A `Binary64` is the 64-bit pattern of a double: sign, eleven exponent
bits, fifty-two fraction bits. Descriptors only read and write such
numbers, they never calculate with them, so the pattern is all there is
and equality is equality of patterns (`0.0` and `-0.0` differ).

The magnitude of a finite number is `significand * 2 ^ exponent`, two
integers; everything else here is exact arithmetic on naturals.
`ofRatio` rounds a quotient to the nearest number, ties to the even
significand, and `ofDecimal` does so for `digits * 10 ^ exponent`.
-/

namespace WorkspaceTrust

structure Binary64 where
  bits : UInt64
deriving DecidableEq, Repr

namespace Binary64

def fractionBits : Nat := 52

def negative (x : Binary64) : Bool := x.bits.toNat / Nat.pow 2 63 % 2 = 1

def exponentField (x : Binary64) : Nat := x.bits.toNat / Nat.pow 2 fractionBits % Nat.pow 2 11

def fraction (x : Binary64) : Nat := x.bits.toNat % Nat.pow 2 fractionBits

/-- Neither infinite nor not-a-number. -/
def isFinite (x : Binary64) : Bool := x.exponentField ≠ 2047

/-- The integer significand; numbers with a zero exponent field have no hidden bit. -/
def significand (x : Binary64) : Nat :=
  if x.exponentField = 0 then x.fraction else x.fraction + Nat.pow 2 fractionBits

/-- The weight of the last bit of the significand, as a power of two. -/
def exponent (x : Binary64) : Int := (max x.exponentField 1 : Nat) - 1075

def isZero (x : Binary64) : Bool := x.significand = 0

/-- The pattern of the infinities without their sign. -/
def infinityMagnitude : Nat := 2047 * Nat.pow 2 fractionBits

def ofMagnitude (negative : Bool) (magnitude : Nat) : Binary64 :=
  ⟨UInt64.ofNat ((if negative then Nat.pow 2 63 else 0) + magnitude)⟩

def infinity (negative : Bool) : Binary64 := ofMagnitude negative infinityMagnitude

def notANumber : Binary64 := ofMagnitude false (infinityMagnitude + Nat.pow 2 51)

/-- The integer nearest to a quotient; of two equally near the even one. -/
def roundDiv (num den : Nat) : Nat :=
  let q := num / den
  let r := num % den
  if 2 * r < den then q
  else if den < 2 * r then q + 1
  else if q % 2 = 0 then q else q + 1

/-- `num / den` below the next power of two: the greatest `e` with `2 ^ e ≤ num / den`. -/
def floorLog2 (num den : Nat) : Int :=
  let e : Int := (num.log2 : Int) - (den.log2 : Int)
  if den * Nat.pow 2 e.toNat ≤ num * Nat.pow 2 (-e).toNat then e else e - 1

/-- The number nearest to `num / den`. Consecutive patterns are consecutive
numbers, so a significand that rounds up to the next power of two carries
into the exponent field by itself. -/
def ofRatio (negative : Bool) (num den : Nat) : Binary64 :=
  if num = 0 then ofMagnitude negative 0
  else
    let place : Int := max (-1074) (floorLog2 num den - fractionBits)
    let significand := roundDiv (num * Nat.pow 2 (-place).toNat) (den * Nat.pow 2 place.toNat)
    let magnitude := (place + 1074).toNat * Nat.pow 2 fractionBits + significand
    ofMagnitude negative (min magnitude infinityMagnitude)

/-- The number nearest to `digits * 10 ^ exponent`. Values of 10^310 and more
are infinite and values below 10^-330 are zero whatever their digits. -/
def ofDecimal (negative : Bool) (digits : Nat) (exponent : Int) : Binary64 :=
  let width : Int := (Nat.toDigits 10 digits).length
  if digits = 0 then ofMagnitude negative 0
  else if 310 < width + exponent then infinity negative
  else if width + exponent < -330 then ofMagnitude negative 0
  else ofRatio negative (digits * Nat.pow 10 exponent.toNat) (Nat.pow 10 (-exponent).toNat)

end Binary64

end WorkspaceTrust
