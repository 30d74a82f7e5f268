import WorkspaceTrust.Decimal.Binary64

/-!
# Reading numbers from text

Two readers, each of a whole text.

* `readInt` reads a run of digits in a given base with an optional sign.
* `readBinary64` reads a decimal: an optional sign and either one of the
  words `inf`, `infinity` and `nan` in any mixture of cases, or digits
  with at most one point and an optional exponent. The point may be the
  first or the last character of the digits but must not stand alone.

Neither accepts blanks, and an exponent needs a digit.
-/

namespace WorkspaceTrust.Literal

/-- The value of an ASCII digit or letter in the bases up to thirty-six. -/
def digitValue (c : Char) : Option Nat :=
  if '0' ≤ c ∧ c ≤ '9' then some (c.toNat - 48)
  else if 'a' ≤ c ∧ c ≤ 'z' then some (c.toNat - 87)
  else if 'A' ≤ c ∧ c ≤ 'Z' then some (c.toNat - 55)
  else none

def isDigit (base : Nat) (c : Char) : Bool :=
  match digitValue c with
  | some d => d < base
  | none => false

/-- The number that a run of digits denotes. -/
def natOfDigits (base : Nat) (cs : List Char) : Nat :=
  cs.foldl (fun n c => n * base + (digitValue c).getD 0) 0

/-- A non-empty run of digits and nothing else. -/
def readNat (base : Nat) (cs : List Char) : Option Nat :=
  if cs ≠ [] ∧ cs.all (isDigit base) then some (natOfDigits base cs) else none

/-- Splits an optional sign from the front; `true` stands for a minus. -/
def splitSign : List Char → Bool × List Char
  | '-' :: cs => (true, cs)
  | '+' :: cs => (false, cs)
  | cs => (false, cs)

/-- A whole number in the given base, with an optional sign. -/
def readInt (base : Nat) (cs : List Char) : Option Int :=
  let (negative, digits) := splitSign cs
  (readNat base digits).map fun n => if negative then -(n : Int) else n

/-- A whole number that fits into 64 bits with a sign. -/
def readInt64 (base : Nat) (cs : List Char) : Option Int :=
  (readInt base cs).filter fun i => -(Nat.pow 2 63 : Int) ≤ i ∧ i < Nat.pow 2 63

/-- An exponent: nothing, or `e` or `E` with an optional sign and digits. -/
def readExponent : List Char → Option Int
  | [] => some 0
  | c :: cs => if c = 'e' ∨ c = 'E' then readInt 10 cs else none

/-- Digits with a point, then an exponent. -/
def readUnsigned (negative : Bool) (cs : List Char) : Option Binary64 :=
  let whole := cs.takeWhile (isDigit 10)
  let rest := cs.dropWhile (isDigit 10)
  let (places, rest) := match rest with
    | '.' :: rest => (rest.takeWhile (isDigit 10), rest.dropWhile (isDigit 10))
    | rest => ([], rest)
  if whole = [] ∧ places = [] then none
  else (readExponent rest).map fun e =>
    Binary64.ofDecimal negative (natOfDigits 10 (whole ++ places)) (e - places.length)

/-- The words for the numbers that have no digits. -/
def readWord (negative : Bool) (cs : List Char) : Option Binary64 :=
  match String.ofList (cs.map Char.toLower) with
  | "inf" | "infinity" => some (Binary64.infinity negative)
  | "nan" => some Binary64.notANumber
  | _ => none

def readBinary64 (cs : List Char) : Option Binary64 :=
  let (negative, rest) := splitSign cs
  (readWord negative rest).or (readUnsigned negative rest)

end WorkspaceTrust.Literal
