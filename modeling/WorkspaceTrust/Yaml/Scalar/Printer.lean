import WorkspaceTrust.Yaml.Scalar.Style
import WorkspaceTrust.SortedMap

/-!
# Writing scalars

`writeScalar n cs` is the text `cs` in the style that suits it, up to and
with the end of its last line. Lines after the first are indented by `n`
blanks, except that a literal scalar leaves its empty lines empty.

A literal scalar opens with a header: the width of the indentation where
the first line starts with a blank or is empty, and a sign that says how
many line ends follow the last line.
-/

namespace WorkspaceTrust.Yaml

def spaces (n : Nat) : List Char := List.replicate n ' '

namespace ScalarStyle

/-- Doubles the quotes; `broken` says that a line has just ended. -/
def writeSingle (n : Nat) (broken : Bool) : List Char → List Char
  | [] => if broken then spaces n else []
  | c :: cs =>
      if isLineBreak c then c :: writeSingle n true cs
      else (if broken then spaces n else []) ++ (if c = '\'' then ['\'', '\''] else [c])
        ++ writeSingle n false cs

/-- Hexadecimal digits in upper case, as many as `width`. -/
def hexField (width n : Nat) : List Char :=
  let digits := (Nat.toDigits 16 n).map Char.toUpper
  List.replicate (width - digits.length) '0' ++ digits

/-- The escape that stands for a character between double quotes. -/
def escape (c : Char) : List Char :=
  if c = '\x00' then ['\\', '0']
  else if c = '\x07' then ['\\', 'a']
  else if c = '\x08' then ['\\', 'b']
  else if c = '\t' then ['\\', 't']
  else if c = '\n' then ['\\', 'n']
  else if c = '\x0b' then ['\\', 'v']
  else if c = '\x0c' then ['\\', 'f']
  else if c = '\r' then ['\\', 'r']
  else if c = '\x1b' then ['\\', 'e']
  else if c = '"' then ['\\', '"']
  else if c = '\\' then ['\\', '\\']
  else if c = '\x85' then ['\\', 'N']
  else if c = '\u2028' then ['\\', 'L']
  else if c = '\u2029' then ['\\', 'P']
  else if c.toNat ≤ 0xFF then '\\' :: 'x' :: hexField 2 c.toNat
  else if c.toNat ≤ 0xFFFF then '\\' :: 'u' :: hexField 4 c.toNat
  else '\\' :: 'U' :: hexField 8 c.toNat

/-- Escapes quotes, backslashes, line breaks and what is not printable. -/
def writeDouble (cs : List Char) : List Char :=
  cs.flatMap fun c =>
    if isPrintable c && !isLineBreak c && c ≠ '"' && c ≠ '\\' then [c] else escape c

/-- The lines of a literal scalar; `broken` says that a line has just ended. -/
def writeLines (n : Nat) (broken : Bool) : List Char → List Char
  | [] => if broken then [] else ['\n']
  | c :: cs =>
      if isLineBreak c then c :: writeLines n true cs
      else (if broken then spaces n else []) ++ c :: writeLines n false cs

/-- The width of the indentation, where it cannot be seen from the first line. -/
def indentationMark (cs : List Char) : List Char :=
  if cs.head?.any isSpaceOrBreak then ['2'] else []

/-- A hyphen if no line end follows the last line, nothing if one does, and a plus
sign if several do or if there is nothing else. -/
def endingMark (cs : List Char) : List Char :=
  match cs.reverse with
  | [] => ['-']
  | last :: before =>
      if !isLineBreak last then ['-']
      else match before with
        | [] => ['+']
        | c :: _ => if isLineBreak c then ['+'] else []

end ScalarStyle

open ScalarStyle in
/-- A scalar without the end of its last line. What is not plain is quoted. -/
def writeInline (n : Nat) (cs : List Char) : List Char :=
  match ScalarStyle.ofText cs with
  | .plain => cs
  | .singleQuoted => '\'' :: writeSingle n false cs ++ ['\'']
  | .doubleQuoted | .literal | .folded => '"' :: writeDouble cs ++ ['"']

open ScalarStyle in
/-- A scalar behind its indicator, with the end of its last line. -/
def writeScalar (n : Nat) (cs : List Char) : List Char :=
  if ScalarStyle.ofText cs = .literal then
    '|' :: indentationMark cs ++ endingMark cs ++ '\n' :: writeLines n true cs
  else writeInline n cs ++ ['\n']

/-- A key that is written on one line in front of its colon. -/
def isSimpleKey (cs : List Char) : Bool :=
  !cs.any ScalarStyle.isLineBreak && (utf8 (String.ofList cs)).length ≤ 128

end WorkspaceTrust.Yaml
