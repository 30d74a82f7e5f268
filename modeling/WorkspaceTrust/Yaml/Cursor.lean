/-!
# Places in a YAML text

A `Cursor` is the unread part of a text together with the place where it
starts. Layout is part of the meaning of YAML, so the place knows its
column and whether anything but blanks stands before it on its line.

Texts are normalized before they are read (`lineText`): every line break
is a single line feed, and the text ends at the first NUL character.
-/

namespace WorkspaceTrust.Yaml

/-- Why a text is not a stream of YAML documents. -/
inductive Fault where
  | tabIndentation
  | indentation
  | commentNotSeparated
  | unexpectedCharacter
  | unterminatedQuote
  | documentMarkerInScalar
  | invalidEscape
  | contentAfterQuote
  | emptyPlainScalar
  | blockHeader
  | anchorName
  | tagText
  | undeclaredTagHandle
  | directive
  | misplacedDirective
  | contentAfterDocumentEnd
  | missingKeyIndicator
  | entryNotAllowed
  | keyNotAllowed
  | valueNotAllowed
  | missingBlank
  | nestingTooDeep
  | unexpectedToken
  | unknownAlias
  | duplicateKey
deriving DecidableEq, Repr

def Fault.message : Fault → String
  | .tabIndentation => "a tab stands in the indentation"
  | .indentation => "the indentation does not fit"
  | .commentNotSeparated => "a comment needs a blank before it"
  | .unexpectedCharacter => "a character that may not start a token"
  | .unterminatedQuote => "a quoted scalar does not end"
  | .documentMarkerInScalar => "a document marker stands inside a scalar"
  | .invalidEscape => "an escape is not known"
  | .contentAfterQuote => "content follows a quoted scalar"
  | .emptyPlainScalar => "a plain scalar is empty"
  | .blockHeader => "the header of a block scalar is malformed"
  | .anchorName => "an anchor or alias has no name"
  | .tagText => "a tag is malformed"
  | .undeclaredTagHandle => "a tag handle is not declared"
  | .directive => "a directive is malformed"
  | .misplacedDirective => "a directive stands inside a document"
  | .contentAfterDocumentEnd => "content follows the end of a document"
  | .missingKeyIndicator => "a key has no colon"
  | .entryNotAllowed => "an item may not start here"
  | .keyNotAllowed => "a key may not start here"
  | .valueNotAllowed => "a value may not start here"
  | .missingBlank => "a blank is missing"
  | .nestingTooDeep => "collections are nested too deeply"
  | .unexpectedToken => "a token may not stand here"
  | .unknownAlias => "an alias names no anchor"
  | .duplicateKey => "a mapping has a key twice"

/-! ## Characters -/

def isBlank (c : Char) : Bool := c = ' ' ∨ c = '\t'

/-- A blank, a line break or the end of the text. -/
def isSpaceOrEnd : Option Char → Bool
  | none => true
  | some c => isBlank c || c = '\n'

/-- A line break or the end of the text. -/
def isLineEnd : Option Char → Bool
  | none => true
  | some c => c = '\n'

/-- The characters that structure flow collections. -/
def isFlowIndicator (c : Char) : Bool :=
  c = ',' ∨ c = '[' ∨ c = ']' ∨ c = '{' ∨ c = '}'

/-- Letters, digits, underscores and hyphens, all of them ASCII. -/
def isWordChar (c : Char) : Bool := c.isAlphanum || c = '_' || c = '-'

/-- Line feeds for all line breaks, and nothing from the first NUL on. -/
def lineText : List Char → List Char
  | [] => []
  | '\r' :: '\n' :: cs => '\n' :: lineText cs
  | '\r' :: cs => '\n' :: lineText cs
  | c :: cs => if c = '\x00' then [] else c :: lineText cs

/-! ## Cursors -/

structure Cursor where
  rest : List Char
  index : Nat
  line : Nat
  column : Nat
  /-- Only blanks stand before this place on its line. -/
  fresh : Bool
deriving Repr

namespace Cursor

def start (text : List Char) : Cursor := ⟨text, 0, 0, 0, true⟩

def peek (c : Cursor) : Option Char := c.rest.head?

def peekNext (c : Cursor) : Option Char := c.rest.tail.head?

def advance (c : Cursor) : Cursor :=
  match c.rest with
  | [] => c
  | '\n' :: rest => ⟨rest, c.index + 1, c.line + 1, 0, true⟩
  | ch :: rest => ⟨rest, c.index + 1, c.line, c.column + 1, c.fresh && isBlank ch⟩

def advanceBy : Nat → Cursor → Cursor
  | 0, c => c
  | n + 1, c => advanceBy n c.advance

def skipWhile (p : Char → Bool) (c : Cursor) : Cursor :=
  c.advanceBy (c.rest.takeWhile p).length

/-- Three times the character, then a blank or the end of the line. -/
def atMarker (ch : Char) (c : Cursor) : Bool :=
  match c.rest with
  | a :: b :: d :: rest => a = ch && b = ch && d = ch && isSpaceOrEnd rest.head?
  | _ => false

/-- A document start or end marker at the margin. -/
def atDocumentMarker (c : Cursor) : Bool :=
  c.column = 0 && (c.atMarker '-' || c.atMarker '.')

/-- Skips blanks and a comment, up to the end of the line or to content, and
tells which blanks it skipped. A comment needs a blank before it. -/
def skipToContent (c : Cursor) : Except Fault (List Char × Cursor) :=
  let blanks := c.rest.takeWhile isBlank
  let c := c.advanceBy blanks.length
  if c.peek = some '#' then
    if blanks = [] then .error .commentNotSeparated
    else .ok (blanks, c.skipWhile (· ≠ '\n'))
  else .ok (blanks, c)

end Cursor

end WorkspaceTrust.Yaml
