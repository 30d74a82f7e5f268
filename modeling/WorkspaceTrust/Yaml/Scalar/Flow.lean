import WorkspaceTrust.Yaml.Cursor
import WorkspaceTrust.Decimal.Literal

/-!
# Plain and quoted scalars

Both may run over several lines. A `Gap` is the white space between two
pieces of such a scalar: blanks within a line are kept, a single line
break is read as a blank, and of several the first is dropped. Inside
double quotes a backslash before a line break joins the lines without a
blank.

The loops run on fuel; the length of the unread text and one more is enough.
-/

namespace WorkspaceTrust.Yaml

structure Gap where
  /-- Blanks that count, latest first. -/
  blanks : List Char
  /-- A line break lies behind, so further blanks do not count. -/
  lineStart : Bool
  /-- The first line break stands for a blank. -/
  folds : Bool
  emptyLines : Nat
deriving Repr

namespace Gap

def none : Gap := ⟨[], false, false, 0⟩

/-- The gap after an escaped line break. -/
def joined : Gap := ⟨[], true, false, 0⟩

def addBreak (g : Gap) : Gap :=
  if g.lineStart then { g with emptyLines := g.emptyLines + 1 } else ⟨[], true, true, g.emptyLines⟩

def addBlank (c : Char) (g : Gap) : Gap :=
  if g.lineStart then g else { g with blanks := c :: g.blanks }

/-- What the gap contributes to the scalar, last character first. -/
def reversedText (g : Gap) : List Char :=
  if g.lineStart then
    if g.folds && g.emptyLines = 0 then [' '] else List.replicate g.emptyLines '\n'
  else g.blanks

end Gap

/-! ## Plain scalars -/

/-- Whether the first character of the text may stand in a plain scalar. A colon
ends it before white space, and in flow collections before an indicator. -/
def continuesPlain (inFlow : Bool) : List Char → Bool
  | [] => false
  | c :: rest =>
      if isBlank c || c = '\n' then false
      else if c = ':' && (isSpaceOrEnd rest.head? || inFlow && rest.head?.any isFlowIndicator) then
        false
      else !(inFlow && isFlowIndicator c)

/-- The longest beginning of the text that a plain scalar can hold on one line. -/
def plainRun (inFlow : Bool) : List Char → List Char
  | [] => []
  | c :: rest => if continuesPlain inFlow (c :: rest) then c :: plainRun inFlow rest else []

/-- White space after a piece of a plain scalar. Tabs may indent empty lines only;
a comment may stand on such a line, and its line is then not counted as empty. -/
def plainGap (indent : Int) : Nat → Cursor → Gap → Except Fault (Gap × Cursor)
  | 0, c, g => .ok (g, c)
  | fuel + 1, c, g =>
      match c.rest with
      | '\n' :: _ => plainGap indent fuel c.advance g.addBreak
      | b :: _ =>
          if isBlank b then
            if g.lineStart && b = '\t' && c.column < indent then do
              let (_, c) ← c.skipToContent
              if isLineEnd c.peek then plainGap indent fuel c { g with lineStart := c.fresh }
              else .error .tabIndentation
            else plainGap indent fuel c.advance (g.addBlank b)
          else .ok (g, c)
      | [] => .ok (g, c)

/-- Reads on with a plain scalar; `text` is what has been read, last character first. -/
def plainText (limit : Nat) (inFlow : Bool) (indent : Int) :
    Nat → Cursor → Gap → List Char → Except Fault (List Char × Cursor)
  | 0, c, _, text => .ok (text, c)
  | fuel + 1, c, g, text =>
      if c.atDocumentMarker || c.peek = some '#' then .ok (text, c)
      else if inFlow && c.peek = some '-' && c.peekNext.any isFlowIndicator then
        .error .unexpectedCharacter
      else
        let run := plainRun inFlow c.rest
        let text := if run = [] then text else run.reverse ++ g.reversedText ++ text
        let g := if run = [] then g else .none
        let c := c.advanceBy run.length
        if c.peek.any fun b => isBlank b || b = '\n' then do
          let (g, c) ← plainGap indent limit c g
          if !inFlow && c.column < indent then .ok (text, c)
          else plainText limit inFlow indent fuel c g text
        else .ok (text, c)

/-- The plain scalar at the cursor, inside a block at `indent`. -/
def readPlain (limit : Nat) (inFlow : Bool) (indent : Int) (c : Cursor) :
    Except Fault (String × Cursor) := do
  if inFlow && c.column < indent + 1 then .error .indentation
  else
    let (text, c) ← plainText limit inFlow (indent + 1) limit c .none []
    if text = [] then .error .emptyPlainScalar
    else .ok (String.ofList text.reverse, c)

/-! ## Quoted scalars -/

/-- The character with a code point, if there is one. -/
def charOfCode (n : Nat) : Option Char :=
  if n.isValidChar then some (Char.ofNat n) else none

/-- The character that a backslash with this letter stands for. -/
def letterEscape : Char → Option Char
  | '0' => some '\x00'
  | 'a' => some '\x07'
  | 'b' => some '\x08'
  | 't' | '\t' => some '\t'
  | 'n' => some '\n'
  | 'v' => some '\x0b'
  | 'f' => some '\x0c'
  | 'r' => some '\r'
  | 'e' => some '\x1b'
  | ' ' => some ' '
  | '"' => some '"'
  | '/' => some '/'
  | '\\' => some '\\'
  | 'N' => some '\x85'
  | '_' => some '\xa0'
  | 'L' => some '\u2028'
  | 'P' => some '\u2029'
  | _ => none

/-- How many hexadecimal digits follow the letter of a numeric escape. -/
def escapeWidth : Char → Nat
  | 'x' => 2
  | 'u' => 4
  | 'U' => 8
  | _ => 0

/-- The escape after a backslash: its character and its length. -/
def readEscape : List Char → Except Fault (Char × Nat)
  | [] => .error .invalidEscape
  | c :: cs =>
      let width := escapeWidth c
      if width = 0 then
        match letterEscape c with
        | some ch => .ok (ch, 1)
        | none => .error .invalidEscape
      else
        let digits := cs.take width
        match if digits.length = width then Literal.readNat 16 digits else none with
        | some n => match charOfCode n with
          | some ch => .ok (ch, width + 1)
          | none => .error .invalidEscape
        | none => .error .invalidEscape

/-- A piece of a quoted scalar without white space, put in front of `text` in
reverse, and whether an escaped line break ended it. -/
def quotedRun (double : Bool) :
    Nat → Cursor → List Char → Except Fault (List Char × Cursor × Bool)
  | 0, c, text => .ok (text, c, false)
  | fuel + 1, c, text =>
      match c.rest with
      | [] => .ok (text, c, false)
      | ch :: rest =>
          if isBlank ch || ch = '\n' then .ok (text, c, false)
          else if double then
            if ch = '"' then .ok (text, c, false)
            else if ch = '\\' then
              if rest.head? = some '\n' then .ok (text, c.advanceBy 2, true)
              else do
                let (e, n) ← readEscape rest
                quotedRun double fuel (c.advanceBy (n + 1)) (e :: text)
            else quotedRun double fuel c.advance (ch :: text)
          else if ch = '\'' then
            if rest.head? = some '\'' then quotedRun double fuel (c.advanceBy 2) ('\'' :: text)
            else .ok (text, c, false)
          else quotedRun double fuel c.advance (ch :: text)

/-- White space inside a quoted scalar. Continuation lines are not indented by tabs. -/
def quotedGap (indent : Int) : Nat → Cursor → Gap → Except Fault (Gap × Cursor)
  | 0, c, g => .ok (g, c)
  | fuel + 1, c, g =>
      match c.rest with
      | '\n' :: _ => quotedGap indent fuel c.advance g.addBreak
      | b :: _ =>
          if isBlank b then
            if g.lineStart && b = '\t' && c.column < indent then .error .tabIndentation
            else quotedGap indent fuel c.advance (g.addBlank b)
          else .ok (g, c)
      | [] => .ok (g, c)

/-- Reads on with a quoted scalar up to its closing quote. -/
def quotedText (limit : Nat) (double : Bool) (indent : Int) :
    Nat → Cursor → List Char → Except Fault (List Char × Cursor)
  | 0, _, _ => .error .unterminatedQuote
  | fuel + 1, c, text =>
      if c.atDocumentMarker then .error .documentMarkerInScalar
      else if c.rest = [] then .error .unterminatedQuote
      else if c.column < indent then .error .indentation
      else do
        let (text, c, escapedBreak) ← quotedRun double limit c text
        if c.peek = some (if double then '"' else '\'') then .ok (text, c.advance)
        else
          let (g, c) ← quotedGap indent limit c (if escapedBreak then .joined else .none)
          quotedText limit double indent fuel c (g.reversedText ++ text)

/-- The quoted scalar at the cursor, inside a block at `indent`, with the blanks
and the comment after it. Only what may follow a key or an item may follow. -/
def readQuoted (limit : Nat) (inFlow : Bool) (indent : Int) (c : Cursor) :
    Except Fault (String × Cursor) := do
  let line := c.line
  let (text, c) ← quotedText limit (c.peek = some '"') indent limit c.advance []
  let (_, c) ← c.skipToContent
  let ends := match c.peek with
    | none | some '\n' => true
    | some ':' => inFlow || c.line = line
    | some ch => inFlow && (ch = ',' || ch = '}' || ch = ']')
  if ends then .ok (String.ofList text.reverse, c) else .error .contentAfterQuote

end WorkspaceTrust.Yaml
