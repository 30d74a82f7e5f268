import WorkspaceTrust.Decimal.Literal
import WorkspaceTrust.Yaml.Cursor

/-!
# Styles of scalars

The five ways to write a scalar, and the one that a text is written in.

`ScalarStyle.ofText` takes the plainest style that keeps the text: a text
of several lines is literal, a text that would be taken for a null, a
boolean or a number is quoted, and every other text is plain. Where the
text does not fit the style (`fitsPlain`, `fitsSingle`, `fitsLiteral`) it
is quoted instead, between single quotes if that is enough. Every text
fits between double quotes, where anything can be escaped.

Readers differ in what ends a line and in how they spell numbers, so both
are taken widely here.
-/

namespace WorkspaceTrust.Yaml

inductive ScalarStyle where
  | plain
  | singleQuoted
  | doubleQuoted
  | literal
  | folded
deriving DecidableEq, Repr

namespace ScalarStyle

/-! ## Characters -/

/-- The characters that some reader takes for the end of a line. -/
def isLineBreak (c : Char) : Bool :=
  c = '\n' ∨ c = '\r' ∨ c = '\x85' ∨ c = '\u2028' ∨ c = '\u2029'

/-- The characters that may be written as they are. -/
def isPrintable (c : Char) : Bool :=
  let n := c.toNat
  c = '\n' ∨ (0x20 ≤ n ∧ n ≤ 0x7E) ∨ (0xA0 ≤ n ∧ n ≤ 0xD7FF)
    ∨ (0xE000 ≤ n ∧ n ≤ 0xFFFD ∧ n ≠ 0xFEFF) ∨ 0x10000 ≤ n

/-- A blank, a line break or the end of the text. -/
def isGap : Option Char → Bool
  | none => true
  | some c => isBlank c || isLineBreak c || c = '\x00'

/-! ## Texts that would be read as something else -/

/-- The names of null and of the booleans. -/
def isWord (text : String) : Bool :=
  ["", "~", "null", "Null", "NULL", "true", "True", "TRUE", "false", "False", "FALSE"].contains text

/-- Digits in the base that the first two characters name, or decimal digits. -/
def readMarkedNat : List Char → Option Nat
  | '0' :: 'x' :: digits => Literal.readNat 16 digits
  | '0' :: 'o' :: digits => Literal.readNat 8 digits
  | '0' :: 'b' :: digits => Literal.readNat 2 digits
  | digits => Literal.readNat 10 digits

/-- A whole number of at most 128 bits, with a sign if it is negative. -/
def isInt (cs : List Char) : Bool :=
  let (negative, digits) := Literal.splitSign cs
  match readMarkedNat digits with
  | some n => if negative then n ≤ Nat.pow 2 127 else n < Nat.pow 2 128
  | none => false

/-- Several decimal digits of which the first is a zero. -/
def isPadded (cs : List Char) : Bool :=
  match (Literal.splitSign cs).2 with
  | '0' :: d :: ds => (d :: ds).all (Literal.isDigit 10)
  | _ => false

/-- A finite decimal, or a word for infinity or not-a-number. -/
def isReal (cs : List Char) : Bool :=
  let unsigned := match cs with
    | '+' :: rest => rest
    | _ => cs
  let doubleSign := cs.head? = some '+' && (unsigned.head? = some '+' || unsigned.head? = some '-')
  !doubleSign
    && ([".inf", ".Inf", ".INF"].contains (String.ofList unsigned)
      || ["-.inf", "-.Inf", "-.INF", ".nan", ".NaN", ".NAN"].contains (String.ofList cs)
      || (Literal.readBinary64 unsigned).any Binary64.isFinite)

/-- Whether a plain scalar with this text might be read as something other than text. -/
def isAmbiguous (cs : List Char) : Bool :=
  isWord (String.ofList cs) || isInt cs || isPadded cs || isReal cs

/-! ## What fits a style -/

/-- Whether a character of the first kind is followed at once by one of the second. -/
def hasPair (p q : Char → Bool) : List Char → Bool
  | a :: b :: cs => (p a && q b) || hasPair p q (b :: cs)
  | _ => false

/-- Three hyphens or three points at the beginning. -/
def startsLikeMarker : List Char → Bool
  | a :: b :: c :: _ => (a = '-' && b = '-' && c = '-') || (a = '.' && b = '.' && c = '.')
  | _ => false

/-- A first character that would not be read as part of the text. -/
def startsWithIndicator : List Char → Bool
  | [] => false
  | c :: cs =>
      ['#', ',', '[', ']', '{', '}', '&', '*', '!', '|', '>', '\'', '"', '%', '@', '\x60'].contains c
        || (['?', ':', '-'].contains c && isGap cs.head?)

/-- A colon before a gap or a hash after one, behind the character `before`. -/
def hasIndicator (before : Char) : List Char → Bool
  | [] => false
  | c :: cs =>
      (c = ':' && isGap cs.head?) || (c = '#' && isGap (some before)) || hasIndicator c cs

def isSpaceOrBreak (c : Char) : Bool := c = ' ' || isLineBreak c

def fitsPlain (cs : List Char) : Bool :=
  cs.all (fun c => isPrintable c && !isLineBreak c)
    && !startsLikeMarker cs && !startsWithIndicator cs
    && !(match cs with | [] => false | c :: rest => hasIndicator c rest)
    && !cs.head?.any isSpaceOrBreak && !cs.getLast?.any isSpaceOrBreak

/-- Line breaks may stand between quotes, but not beside a space. -/
def fitsSingle (cs : List Char) : Bool :=
  cs.all isPrintable
    && !hasPair (· = ' ') isLineBreak cs && !hasPair isLineBreak (· = ' ') cs

/-- No space may stand at the end of a line. -/
def fitsLiteral (cs : List Char) : Bool :=
  cs.all isPrintable && !hasPair (· = ' ') isLineBreak cs && cs.getLast? ≠ some ' ' && cs ≠ []

/-- The style that a text is written in. -/
def ofText (cs : List Char) : ScalarStyle :=
  if cs.contains '\n' then
    if fitsLiteral cs then .literal else .doubleQuoted
  else if !isAmbiguous cs && fitsPlain cs then .plain
  else if fitsSingle cs then .singleQuoted
  else .doubleQuoted

end ScalarStyle

end WorkspaceTrust.Yaml
