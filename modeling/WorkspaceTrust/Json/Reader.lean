import WorkspaceTrust.Json.Basic
import WorkspaceTrust.Decimal.Literal

/-!
# Reading JSON

`read` reads a whole text as one value, by the grammar of JSON: blanks
between tokens, no trailing commas, no leading zeros, escapes and
surrogate pairs in strings. The value is `Ordered`: of two members with
one key the later counts. A number without point and exponent that fits
into 64 bits is whole; every other number is a float, and one beyond the
range of doubles is refused. Lists and objects may be nested to any depth,
as in the grammar; readers with the same messages that stop at a depth of
128 refuse more texts than this one.

Each reader takes the unread text and gives back what it leaves. An
error carries the fault and the text that was still unread there, from
which `position` counts line and column.
-/

namespace WorkspaceTrust.Json

/-- Why a text is not JSON. -/
inductive Fault where
  | endInList
  | endInObject
  | endInString
  | endInValue
  | endOfPair
  | expectedColon
  | expectedListEnd
  | expectedObjectEnd
  | expectedWord
  | expectedValue
  | invalidEscape
  | invalidNumber
  | numberOutOfRange
  | invalidCodePoint
  | controlCharacter
  | keyNotString
  | loneSurrogate
  | trailingComma
  | trailingCharacters
deriving DecidableEq, Repr

def Fault.message : Fault → String
  | .endInList => "EOF while parsing a list"
  | .endInObject => "EOF while parsing an object"
  | .endInString => "EOF while parsing a string"
  | .endInValue => "EOF while parsing a value"
  | .endOfPair => "unexpected end of hex escape"
  | .expectedColon => "expected `:`"
  | .expectedListEnd => "expected `,` or `]`"
  | .expectedObjectEnd => "expected `,` or `\x7d`"
  | .expectedWord => "expected ident"
  | .expectedValue => "expected value"
  | .invalidEscape => "invalid escape"
  | .invalidNumber => "invalid number"
  | .numberOutOfRange => "number out of range"
  | .invalidCodePoint => "invalid unicode code point"
  | .controlCharacter => "control character (\\u0000-\\u001F) found while parsing a string"
  | .keyNotString => "key must be a string"
  | .loneSurrogate => "lone leading surrogate in hex escape"
  | .trailingComma => "trailing comma"
  | .trailingCharacters => "trailing characters"

/-- A fault and what was unread when it was found. -/
structure ReadError where
  fault : Fault
  unread : List Char
deriving DecidableEq, Repr

/-- A fault at the end of what has been read. -/
def failAt {α : Type} (fault : Fault) (unread : List Char) : Except ReadError α :=
  .error ⟨fault, unread⟩

/-- A fault at the next character, which counts as read. -/
def failBefore {α : Type} (fault : Fault) (unread : List Char) : Except ReadError α :=
  .error ⟨fault, unread.drop 1⟩

def isBlank (c : Char) : Bool := c = ' ' ∨ c = '\n' ∨ c = '\t' ∨ c = '\r'

def skipBlanks (cs : List Char) : List Char := cs.dropWhile isBlank

/-- Line and column, from one and in bytes, of the end of the read part of a text. -/
def position (text unread : List Char) : Nat × Nat :=
  let done := text.take (text.length - unread.length)
  let line := done.count '\n' + 1
  let column := (done.reverse.takeWhile (· ≠ '\n')).foldl (fun n c => n + c.utf8Size) 0
  (line, column)

def ReadError.message (text : List Char) (e : ReadError) : String :=
  let (line, column) := position text e.unread
  s!"{e.fault.message} at line {line} column {column}"

/-! ## Strings -/

/-- The value of four hexadecimal digits. -/
def hexQuad (a b c d : Char) : Option Nat := Literal.readNat 16 [a, b, c, d]

/-- The character of a surrogate pair. -/
def ofSurrogates (high low : Nat) : Char :=
  Char.ofNat (0x10000 + (high - 0xD800) * 0x400 + (low - 0xDC00))

def isHighSurrogate (n : Nat) : Bool := 0xD800 ≤ n ∧ n ≤ 0xDBFF
def isLowSurrogate (n : Nat) : Bool := 0xDC00 ≤ n ∧ n ≤ 0xDFFF

/-- The fault of a high surrogate that no numeric escape follows. -/
def unpaired : List Char → ReadError
  | [] | ['\\'] | '\\' :: 'u' :: _ => ⟨.endInString, []⟩
  | '\\' :: cs | cs => ⟨.endOfPair, cs.drop 1⟩

/-- The character that a one-letter escape stands for. -/
def simpleEscape (c : Char) : Option Char :=
  if c = '"' ∨ c = '\\' ∨ c = '/' then some c
  else if c = 'b' then some '\x08'
  else if c = 'f' then some '\x0c'
  else if c = 'n' then some '\n'
  else if c = 'r' then some '\r'
  else if c = 't' then some '\t'
  else none

/-- The rest of a string after its opening quote, up to and with its closing quote. -/
def readChars : List Char → Except ReadError (List Char × List Char)
  | [] => failAt .endInString []
  | '"' :: cs => .ok ([], cs)
  | '\\' :: 'u' :: a :: b :: c :: d :: cs =>
      match hexQuad a b c d with
      | none => failAt .invalidEscape cs
      | some n =>
          if isLowSurrogate n then failAt .loneSurrogate cs
          else if isHighSurrogate n then
            match cs with
            | '\\' :: 'u' :: e :: f :: g :: h :: cs =>
                match hexQuad e f g h with
                | none => failAt .invalidEscape cs
                | some m =>
                    if isLowSurrogate m then
                      (readChars cs).map fun (s, r) => (ofSurrogates n m :: s, r)
                    else failAt .loneSurrogate cs
            | cs => .error (unpaired cs)
          else (readChars cs).map fun (s, r) => (Char.ofNat n :: s, r)
  | ['\\'] => failAt .endInString []
  | '\\' :: c :: cs =>
      if c = 'u' then failAt .endInString []
      else match simpleEscape c with
        | none => failAt .invalidEscape cs
        | some c => (readChars cs).map fun (s, r) => (c :: s, r)
  | c :: cs =>
      if c.toNat < 32 then failAt .controlCharacter cs
      else (readChars cs).map fun (s, r) => (c :: s, r)

/-! ## Numbers -/

/-- The digits of the whole part: a lone zero, or digits that do not start with one. -/
def readWhole : List Char → Except ReadError (List Char × List Char)
  | [] => failAt .endInValue []
  | '0' :: cs =>
      if cs.head?.any (Literal.isDigit 10) then failBefore .invalidNumber cs else .ok (['0'], cs)
  | c :: cs =>
      if Literal.isDigit 10 c then
        .ok (c :: cs.takeWhile (Literal.isDigit 10), cs.dropWhile (Literal.isDigit 10))
      else failAt .invalidNumber cs

/-- The digits after a point, at least one. `none` if there is no point. -/
def readPlaces : List Char → Except ReadError (Option (List Char) × List Char)
  | '.' :: cs =>
      let digits := cs.takeWhile (Literal.isDigit 10)
      let rest := cs.dropWhile (Literal.isDigit 10)
      if digits ≠ [] then .ok (some digits, rest)
      else if rest = [] then failAt .endInValue rest
      else failBefore .invalidNumber rest
  | cs => .ok (none, cs)

/-- An exponent, if there is one. -/
def readExponent : List Char → Except ReadError (Option Int × List Char)
  | c :: cs =>
      if c = 'e' ∨ c = 'E' then
        let (negative, cs) := Literal.splitSign cs
        let digits := cs.takeWhile (Literal.isDigit 10)
        let rest := cs.dropWhile (Literal.isDigit 10)
        if digits ≠ [] then
          let n : Int := Literal.natOfDigits 10 digits
          .ok (some (if negative then -n else n), rest)
        else if rest = [] then failAt .endInValue rest
        else failBefore .invalidNumber rest
      else .ok (none, c :: cs)
  | [] => .ok (none, [])

/-- The number with the given parts. A minus sign before a whole zero makes it a float. -/
def numberOf (negative : Bool) (whole : List Char) (places : Option (List Char))
    (exponent : Option Int) : Number :=
  let asFloat :=
    let places := places.getD []
    Number.float <| Binary64.ofDecimal negative (Literal.natOfDigits 10 (whole ++ places))
      (exponent.getD 0 - places.length)
  match places, exponent with
  | none, none =>
      let n := Literal.natOfDigits 10 whole
      if negative then
        if 0 < n ∧ n ≤ Nat.pow 2 63 then .int (-(n : Int)) else asFloat
      else if n < Nat.pow 2 64 then .int n else asFloat
  | _, _ => asFloat

def readNumber (cs : List Char) : Except ReadError (Number × List Char) := do
  let (negative, cs) := match cs with
    | '-' :: cs => (true, cs)
    | cs => (false, cs)
  let (whole, cs) ← readWhole cs
  let (places, cs) ← readPlaces cs
  let (exponent, cs) ← readExponent cs
  match numberOf negative whole places exponent with
  | .float x => if x.isFinite then .ok (.float x, cs) else failAt .numberOutOfRange cs
  | .int i => .ok (.int i, cs)

/-! ## Values -/

/-- The rest of a word whose first letter has been read. -/
def readWord (v : Json) : List Char → List Char → Except ReadError (Json × List Char)
  | [], cs => .ok (v, cs)
  | _ :: _, [] => failAt .endInValue []
  | w :: ws, c :: cs => if c = w then readWord v ws cs else failAt .expectedWord cs

mutual

/-- One value, after blanks. The fuel bounds the depth of the value and the
number of its items; the length of the text is enough. -/
def readValue : Nat → List Char → Except ReadError (Json × List Char)
  | 0, cs => failAt .endInValue cs
  | fuel + 1, cs =>
      match skipBlanks cs with
      | [] => failAt .endInValue []
      | 'n' :: cs => readWord .null "ull".toList cs
      | 't' :: cs => readWord (.bool true) "rue".toList cs
      | 'f' :: cs => readWord (.bool false) "alse".toList cs
      | '"' :: cs => (readChars cs).map fun (s, r) => (.str (String.ofList s), r)
      | '[' :: cs =>
          match skipBlanks cs with
          | [] => failAt .endInList []
          | ']' :: cs => .ok (.arr [], cs)
          | cs => (readItems fuel cs).map fun (vs, r) => (.arr vs, r)
      | '{' :: cs =>
          match skipBlanks cs with
          | [] => failAt .endInObject []
          | '}' :: cs => .ok (.obj [], cs)
          | cs => (readMembers fuel cs).map fun (ms, r) => (object (SortedMap.ofList ms), r)
      | c :: cs =>
          if c = '-' ∨ Literal.isDigit 10 c then
            (readNumber (c :: cs)).map fun (n, r) => (.num n, r)
          else failBefore .expectedValue (c :: cs)

/-- At least one item, then the closing bracket. -/
def readItems : Nat → List Char → Except ReadError (List Json × List Char)
  | 0, cs => failAt .endInList cs
  | fuel + 1, cs => do
      let (v, cs) ← readValue fuel cs
      match skipBlanks cs with
      | [] => failAt .endInList []
      | ']' :: cs => .ok ([v], cs)
      | ',' :: cs =>
          match skipBlanks cs with
          | ']' :: cs => failBefore .trailingComma (']' :: cs)
          | cs =>
              let (vs, cs) ← readItems fuel cs
              .ok (v :: vs, cs)
      | cs => failBefore .expectedListEnd cs

/-- At least one member, then the closing brace. -/
def readMembers : Nat → List Char → Except ReadError (List (String × Json) × List Char)
  | 0, cs => failAt .endInObject cs
  | fuel + 1, cs =>
      match skipBlanks cs with
      | [] => failAt .endInObject []
      | '"' :: cs => do
          let (k, cs) ← readChars cs
          match skipBlanks cs with
          | [] => failAt .endInObject []
          | ':' :: cs =>
              let (v, cs) ← readValue fuel cs
              match skipBlanks cs with
              | [] => failAt .endInObject []
              | '}' :: cs => .ok ([(String.ofList k, v)], cs)
              | ',' :: cs =>
                  match skipBlanks cs with
                  | '}' :: cs => failBefore .trailingComma ('}' :: cs)
                  | cs =>
                      let (ms, cs) ← readMembers fuel cs
                      .ok ((String.ofList k, v) :: ms, cs)
              | cs => failBefore .expectedObjectEnd cs
          | cs => failBefore .expectedColon cs
      | cs => failBefore .keyNotString cs

end

/-- What may follow the last token of a text. -/
def finish (cs : List Char) : Except ReadError Unit :=
  match skipBlanks cs with
  | [] => .ok ()
  | cs => failBefore .trailingCharacters cs

def readAll (cs : List Char) : Except ReadError Json := do
  let (v, cs) ← readValue (cs.length + 1) cs
  finish cs
  .ok v

/-- The value of a whole text. -/
def read (s : String) : Except ReadError Json := readAll s.toList

end WorkspaceTrust.Json
