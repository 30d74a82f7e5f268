import WorkspaceTrust.Json.Basic
import WorkspaceTrust.Decimal.Shortest

/-!
# Writing JSON

A value is written on one line (`Layout.line`) or with one item or
member to a line, two blanks deeper than its container
(`Layout.indented`). Empty arrays and objects stay on one line in both.
Members are written in the order in which they stand.

The writers put their text in front of what follows, so that what is
written can be read off in one pass: `writeTo l d v rest` is the text of
`v` and then `rest`.
-/

namespace WorkspaceTrust.Json

/-- Numbers with an exponent have a sign in front of it. -/
def floatNotation : Binary64.Notation := ⟨true⟩

def Number.write : Number → String
  | .int i => toString i
  | .float x => x.write floatNotation

/-- A digit of a lower-case hexadecimal number. -/
def hexDigit (n : Nat) : Char := (Nat.digitChar (n % 16))

/-- Quotes, backslashes and control characters are escaped, nothing else. -/
def escapeChar (c : Char) : List Char :=
  if c = '"' then ['\\', '"']
  else if c = '\\' then ['\\', '\\']
  else if c = '\n' then ['\\', 'n']
  else if c = '\r' then ['\\', 'r']
  else if c = '\t' then ['\\', 't']
  else if c = '\x08' then ['\\', 'b']
  else if c = '\x0c' then ['\\', 'f']
  else if c.toNat < 32 then
    ['\\', 'u', '0', '0', hexDigit (c.toNat / 16), hexDigit c.toNat]
  else [c]

def writeString (s : String) (rest : List Char) : List Char :=
  '"' :: (s.toList.flatMap escapeChar ++ '"' :: rest)

inductive Layout where
  | line
  | indented
deriving DecidableEq, Repr

namespace Layout

/-- What separates two items, and an item from the brackets around it, at depth `d`. -/
def gap : Layout → Nat → List Char
  | .line, _ => []
  | .indented, d => '\n' :: List.replicate (2 * d) ' '

def colon : Layout → List Char
  | .line => [':']
  | .indented => [':', ' ']

end Layout

mutual

/-- The text of a value that stands at depth `d`, in front of `rest`. -/
def writeTo (l : Layout) (d : Nat) : Json → List Char → List Char
  | .null, rest => "null".toList ++ rest
  | .bool true, rest => "true".toList ++ rest
  | .bool false, rest => "false".toList ++ rest
  | .num n, rest => n.write.toList ++ rest
  | .str s, rest => writeString s rest
  | .arr [], rest => '[' :: ']' :: rest
  | .arr (v :: vs), rest =>
      '[' :: (l.gap (d + 1) ++ writeTo l (d + 1) v (writeItems l (d + 1) vs
        (l.gap d ++ ']' :: rest)))
  | .obj [], rest => '{' :: '}' :: rest
  | .obj ((k, v) :: ms), rest =>
      '{' :: (l.gap (d + 1) ++ writeString k (l.colon ++ writeTo l (d + 1) v
        (writeMembers l (d + 1) ms (l.gap d ++ '}' :: rest))))

/-- The items after the first, each behind a comma. -/
def writeItems (l : Layout) (d : Nat) : List Json → List Char → List Char
  | [], rest => rest
  | v :: vs, rest => ',' :: (l.gap d ++ writeTo l d v (writeItems l d vs rest))

/-- The members after the first, each behind a comma. -/
def writeMembers (l : Layout) (d : Nat) : List (String × Json) → List Char → List Char
  | [], rest => rest
  | (k, v) :: ms, rest =>
      ',' :: (l.gap d ++ writeString k (l.colon ++ writeTo l d v (writeMembers l d ms rest)))

end

/-- The text of a value. -/
def write (l : Layout) (v : Json) : String := String.ofList (writeTo l 0 v [])

end WorkspaceTrust.Json
