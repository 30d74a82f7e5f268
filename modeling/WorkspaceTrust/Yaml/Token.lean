import WorkspaceTrust.Yaml.Property
import WorkspaceTrust.Yaml.Scalar.Block
import WorkspaceTrust.Yaml.Scalar.Flow
import WorkspaceTrust.Yaml.Scalar.Style

/-!
# Tokens of a YAML text

`tokens` cuts a text into tokens. Indentation becomes tokens too: a block
collection starts where a line is indented deeper than its surroundings
and ends where a line is indented less.

Two things make this more than cutting. A simple key is known to be a
key only when its colon comes, so the places where one may have started
are remembered (`PossibleKey`) and a key token is put in there later. And
content after `- ` or `key: ` may sit one column deeper than the block
around it without starting a block, which an `Indent` with
`closes = false` stands for.
-/

namespace WorkspaceTrust.Yaml

inductive Token where
  | streamEnd
  | directive (d : Directive)
  | documentStart
  | documentEnd
  | blockSequenceStart
  | blockMappingStart
  | blockEnd
  | flowSequenceStart
  | flowSequenceEnd
  | flowMappingStart
  | flowMappingEnd
  | blockEntry
  | flowEntry
  | key
  | value
  | alias (name : String)
  | anchor (name : String)
  | tag (handle name : String)
  | scalar (style : ScalarStyle) (text : String)
deriving DecidableEq, Repr

/-- A place where a simple key may have started. -/
structure PossibleKey where
  possible : Bool
  /-- Nothing but a key may stand here. -/
  required : Bool
  /-- How many tokens stand before it. -/
  number : Nat
  index : Nat
  line : Nat
  column : Nat
deriving Repr

def PossibleKey.none : PossibleKey := ⟨false, false, 0, 0, 0, 0⟩

def PossibleKey.giveUp (k : PossibleKey) : PossibleKey := { k with possible := false }

/-- An open level of indentation. -/
structure Indent where
  /-- The indentation around it. -/
  outer : Int
  /-- Its end is a token. -/
  closes : Bool
deriving Repr

structure Lexer where
  /-- More than the length of the text, which bounds every loop. -/
  limit : Nat
  cursor : Cursor
  /-- The tokens so far, latest first, and their number. -/
  tokens : List Token
  count : Nat
  keyAllowed : Bool
  /-- One for each open flow collection and one for the block, innermost first. -/
  keys : List PossibleKey
  indent : Int
  /-- Innermost first. -/
  indents : List Indent
  flowLevel : Nat
  /-- The place where a colon needs no blank after it. -/
  adjacentAt : Option Nat
  /-- The pairs of a flow collection have a mapping around them. -/
  inFlowMapping : Bool
  /-- A mapping of one pair was opened inside a flow sequence. -/
  inSinglePair : Bool
  /-- The last token is an anchor or a tag at the margin. -/
  propertyAtMargin : Bool
deriving Repr

namespace Lexer

def start (text : List Char) : Lexer :=
  { limit := text.length + 1, cursor := .start text, tokens := [], count := 0
    keyAllowed := true, keys := [.none], indent := -1, indents := [], flowLevel := 0
    adjacentAt := none, inFlowMapping := false, inSinglePair := false
    propertyAtMargin := false }

def push (t : Token) (s : Lexer) : Lexer :=
  { s with tokens := t :: s.tokens, count := s.count + 1, propertyAtMargin := false }

/-- Puts a token in after the first `n`. -/
def insertAt (n : Nat) (t : Token) (s : Lexer) : Lexer :=
  let later := s.count - n
  { s with tokens := s.tokens.take later ++ t :: s.tokens.drop later, count := s.count + 1 }

def inFlow (s : Lexer) : Bool := s.flowLevel ≠ 0

def move (c : Cursor) (s : Lexer) : Lexer := { s with cursor := c }

def allowKey (b : Bool) (s : Lexer) : Lexer := { s with keyAllowed := b }

def column (s : Lexer) : Int := s.cursor.column

/-! ## Indentation -/

/-- Closes the levels deeper than `column`. -/
def unrollTo (column : Int) : Int → List Indent → List Token → Nat →
    Int × List Indent × List Token × Nat
  | indent, [], ts, n => (indent, [], ts, n)
  | indent, i :: is, ts, n =>
      if column < indent then
        if i.closes then unrollTo column i.outer is (.blockEnd :: ts) (n + 1)
        else unrollTo column i.outer is ts n
      else (indent, i :: is, ts, n)

def unroll (column : Int) (s : Lexer) : Lexer :=
  if s.inFlow then s
  else
    let (indent, indents, tokens, count) := unrollTo column s.indent s.indents s.tokens s.count
    { s with
      indent, indents, tokens, count
      propertyAtMargin := s.propertyAtMargin && count = s.count }

/-- Drops the innermost levels that have no end token. -/
def dropOpenEnded (s : Lexer) : Lexer :=
  let dropped := s.indents.takeWhile fun i => !i.closes
  match dropped.getLast? with
  | none => s
  | some i => { s with indent := i.outer, indents := s.indents.drop dropped.length }

/-- Opens a block collection at `column` if that is deeper than the block around
it. Its token goes after the first `at?` tokens, or to the end. -/
def roll (column : Int) (at? : Option Nat) (t : Token) (s : Lexer) : Lexer :=
  if s.inFlow then s
  else
    let s := match s.indents with
      | i :: is =>
          if s.indent ≤ column && !i.closes then { s with indent := i.outer, indents := is } else s
      | [] => s
    if s.indent < column then
      let s := { s with indents := ⟨s.indent, true⟩ :: s.indents, indent := column }
      match at? with
      | some n => s.insertAt n t
      | none => s.push t
    else s

/-- Lets content stand one column deeper than the block around it. -/
def rollOne (s : Lexer) : Lexer :=
  if !s.inFlow && s.indents.head?.any (·.closes) then
    { s with indents := ⟨s.indent, false⟩ :: s.indents, indent := s.indent + 1 }
  else s

/-! ## Possible keys -/

/-- Remembers that a key may start here. -/
def saveKey (s : Lexer) : Lexer :=
  if s.keyAllowed then
    let required := !s.inFlow && s.indent = s.column && s.indents.head?.any (·.closes)
    let key : PossibleKey :=
      ⟨true, required, s.count, s.cursor.index, s.cursor.line, s.cursor.column⟩
    { s with keys := key :: s.keys.tail }
  else s

/-- Gives up the innermost possible key. -/
def removeKey (s : Lexer) : Except Fault Lexer :=
  match s.keys with
  | k :: ks =>
      if k.possible && k.required then .error .missingKeyIndicator
      else .ok { s with keys := k.giveUp :: ks }
  | [] => .ok s

/-- A key in a block ends on its line and within 1024 characters. -/
def staleKey (s : Lexer) (k : PossibleKey) : Except Fault PossibleKey :=
  if k.possible && !s.inFlow &&
      (k.line < s.cursor.line || k.index + 1024 < s.cursor.index) then
    if k.required then .error .missingKeyIndicator else .ok k.giveUp
  else .ok k

def staleKeys (s : Lexer) : Except Fault Lexer := do
  .ok { s with keys := ← s.keys.mapM s.staleKey }

/-! ## White space between tokens -/

/-- Skips white space and comments. After a line break in a block a key may start.
Tabs indent nothing but empty lines and the inside of flow collections. -/
def skipSpace : Nat → Lexer → Except Fault Lexer
  | 0, s => .ok s
  | fuel + 1, s =>
      match s.cursor.rest with
      | '\n' :: _ =>
          let s := s.move s.cursor.advance
          skipSpace fuel (if s.inFlow then s else s.allowKey true)
      | '#' :: _ => skipSpace fuel (s.move (s.cursor.skipWhile (· ≠ '\n')))
      | ' ' :: _ => skipSpace fuel (s.move s.cursor.advance)
      | '\t' :: _ =>
          if s.indents ≠ [] && s.cursor.fresh && s.column < s.indent then do
            let (_, c) ← s.cursor.skipToContent
            if isLineEnd c.peek then skipSpace fuel (s.move c) else .error .tabIndentation
          else skipSpace fuel (s.move s.cursor.advance)
      | _ => .ok s

/-- Skips white space other than tabs, and comments; tells whether there was any white space. -/
def skipBlankLines : Nat → Lexer → Bool → Bool × Lexer
  | 0, s, any => (any, s)
  | fuel + 1, s, any =>
      match s.cursor.rest with
      | '\n' :: _ =>
          let s := s.move s.cursor.advance
          skipBlankLines fuel (if s.inFlow then s else s.allowKey true) true
      | ' ' :: _ => skipBlankLines fuel (s.move s.cursor.advance) true
      | '#' :: _ => skipBlankLines fuel (s.move (s.cursor.skipWhile (· ≠ '\n'))) any
      | _ => (any, s)

/-- Skips blanks and a comment on the line. -/
def skipToContent (s : Lexer) : Except Fault Lexer := do
  let (_, c) ← s.cursor.skipToContent
  .ok (s.move c)

/-! ## One token -/

/-- Ends the mapping of one pair inside a flow sequence. -/
def endSinglePair (s : Lexer) : Lexer :=
  if s.inSinglePair then
    { s with inSinglePair := false, inFlowMapping := false }.push .flowMappingEnd
  else s

def streamEnd (s : Lexer) : Except Fault Lexer := do
  if s.keys.any fun k => k.possible && k.required then .error .missingKeyIndicator
  else
    let s := { s with keys := s.keys.map PossibleKey.giveUp }
    .ok ((s.unroll (-1)).allowKey false |>.push .streamEnd)

def documentMarker (t : Token) (s : Lexer) : Except Fault Lexer := do
  let s ← (s.unroll (-1)).removeKey
  .ok ((s.allowKey false).move (s.cursor.advanceBy 3) |>.push t)

def documentEnd (s : Lexer) : Except Fault Lexer := do
  let s ← (← s.documentMarker .documentEnd).skipToContent
  if isLineEnd s.cursor.peek then .ok s else .error .contentAfterDocumentEnd

def directive (s : Lexer) : Except Fault Lexer := do
  let s ← (s.unroll (-1)).removeKey
  let (d, c) ← readDirective s.cursor
  .ok ((s.allowKey false).move c |>.push (.directive d))

def flowStart (t : Token) (s : Lexer) : Except Fault Lexer := do
  let s := s.saveKey.rollOne
  if s.flowLevel = 255 then .error .nestingTooDeep
  else
    let s := { s with keys := .none :: s.keys, flowLevel := s.flowLevel + 1, keyAllowed := true }
    let s := if t = .flowMappingStart then { s with inFlowMapping := true } else s
    let s ← (s.move s.cursor.advance).skipToContent
    .ok (s.push t)

def flowEnd (t : Token) (s : Lexer) : Except Fault Lexer := do
  let s ← s.removeKey
  let s := if s.inFlow then { s with flowLevel := s.flowLevel - 1, keys := s.keys.tail } else s
  let s := (s.allowKey false).endSinglePair
  let s ← (s.move s.cursor.advance).skipToContent
  let s := if s.inFlow then { s with adjacentAt := some s.cursor.index } else s
  .ok (s.push t)

def flowEntry (s : Lexer) : Except Fault Lexer := do
  let s ← s.removeKey
  let s := (s.allowKey true).endSinglePair
  let s ← (s.move s.cursor.advance).skipToContent
  .ok (s.push .flowEntry)

def blockEntry (s : Lexer) : Except Fault Lexer := do
  if s.inFlow || !s.keyAllowed then .error .entryNotAllowed
  else if s.propertyAtMargin && s.cursor.column = 0 && -1 < s.indent then .error .indentation
  else
    let column := s.column
    let s := (s.move s.cursor.advance).roll column none .blockSequenceStart
    let (blanks, c) ← s.cursor.skipToContent
    if blanks.contains '\t' && c.peek = some '-' && isSpaceOrEnd c.peekNext then
      .error .tabIndentation
    else
      let s := s.move c
      let s := if c.peek.any fun ch => ch = '\n' || isFlowIndicator ch then s.rollOne else s
      let s ← s.removeKey
      .ok ((s.allowKey true).push .blockEntry)

def explicitKey (s : Lexer) : Except Fault Lexer := do
  if !s.inFlow && !s.keyAllowed then .error .keyNotAllowed
  else
    let s :=
      if s.inFlow then { s with inFlowMapping := true }
      else s.roll s.column none .blockMappingStart
    let s ← s.removeKey
    let s := s.allowKey (!s.inFlow)
    let s := s.move s.cursor.advance
    let (any, s) := s.skipBlankLines s.limit false
    if !any then .error .missingBlank
    else if s.cursor.peek = some '\t' then .error .tabIndentation
    else .ok (s.push .key)

def value (s : Lexer) : Except Fault Lexer := do
  let key := s.keys.head?.getD .none
  let line := s.cursor.line
  let column := s.column
  let singlePair := s.inFlow && !s.inFlowMapping
  let s := { s with inSinglePair := singlePair, cursor := s.cursor.advance }
  let s ←
    if s.cursor.peek = some '\t' then do
      let (blanks, c) ← s.cursor.skipToContent
      if !blanks.contains ' ' && c.peek.any fun ch => ch = '-' || isWordChar ch then
        .error Fault.tabIndentation
      else .ok (s.move c)
    else .ok s
  if key.possible then
    if singlePair && key.line < line then .error .valueNotAllowed
    else
      let s := s.insertAt key.number .key
      let s := if singlePair then s.insertAt key.number .flowMappingStart else s
      let s := (s.roll key.column (some key.number) .blockMappingStart).rollOne
      let s := { s with keys := key.giveUp :: s.keys.tail, keyAllowed := false }
      .ok (s.push .value)
  else
    let s := if singlePair then s.push .flowMappingStart else s
    if !s.inFlow && !s.keyAllowed then .error .valueNotAllowed
    else
      let s := (s.roll column none .blockMappingStart).rollOne
      .ok ((s.allowKey (!s.inFlow)).push .value)

/-- An anchor, an alias or a tag. -/
def property (t : Token) (c : Cursor) (s : Lexer) : Lexer :=
  let atMargin := s.cursor.column = 0
  let s := (s.saveKey.allowKey false).move c |>.push t
  match t with
  | .alias _ => s
  | _ => { s with propertyAtMargin := atMargin }

def anchor (s : Lexer) : Except Fault Lexer := do
  let (name, c) ← readAnchor s.cursor
  .ok (s.property (if s.cursor.peek = some '*' then .alias name else .anchor name) c)

def tag (s : Lexer) : Except Fault Lexer := do
  let (handle, name, c) ← readTag s.inFlow s.cursor
  .ok (s.property (.tag handle name) c)

def blockScalar (style : ScalarStyle) (s : Lexer) : Except Fault Lexer := do
  let s := (s.saveKey.allowKey true).dropOpenEnded
  let (text, c) ← readBlock s.limit s.indent s.cursor
  .ok ((s.move c).push (.scalar style text))

def quotedScalar (style : ScalarStyle) (s : Lexer) : Except Fault Lexer := do
  let s := s.saveKey.allowKey false
  let (text, c) ← readQuoted s.limit s.inFlow s.indent s.cursor
  let s ← (s.move c).skipSpace s.limit
  .ok ({ s with adjacentAt := some s.cursor.index }.push (.scalar style text))

def plainScalar (s : Lexer) : Except Fault Lexer := do
  let s := (s.saveKey.allowKey false).dropOpenEnded
  let (text, c) ← readPlain s.limit s.inFlow s.indent s.cursor
  let s := if c.fresh then s.allowKey true else s
  .ok ((s.move c).push (.scalar .plain text))

/-- Reads the token that starts with `ch`, at the cursor. -/
def token (ch : Char) (s : Lexer) : Except Fault Lexer :=
  let spaced := isSpaceOrEnd s.cursor.peekNext
  let adjacent := s.inFlow &&
    (s.cursor.peekNext.any isFlowIndicator || s.adjacentAt = some s.cursor.index)
  match ch with
  | '[' => s.flowStart .flowSequenceStart
  | '{' => s.flowStart .flowMappingStart
  | ']' => s.flowEnd .flowSequenceEnd
  | '}' => s.flowEnd .flowMappingEnd
  | ',' => s.flowEntry
  | '-' => if spaced then s.blockEntry else s.plainScalar
  | '?' => if spaced then s.explicitKey else s.plainScalar
  | ':' => if spaced || adjacent then s.value else s.plainScalar
  | '*' | '&' => s.anchor
  | '!' => s.tag
  | '|' => if s.inFlow then s.plainScalar else s.blockScalar .literal
  | '>' => if s.inFlow then s.plainScalar else s.blockScalar .folded
  | '\'' => s.quotedScalar .singleQuoted
  | '"' => s.quotedScalar .doubleQuoted
  | '%' | '@' | '\x60' => .error .unexpectedCharacter
  | _ => s.plainScalar

/-- Reads the next tokens; `none` when the stream has ended. -/
def step (s : Lexer) : Except Fault (Lexer × Bool) := do
  let s ← s.skipSpace s.limit
  let s ← s.staleKeys
  let s := s.unroll s.column
  match s.cursor.rest with
  | [] => .ok (← s.streamEnd, true)
  | ch :: _ =>
      if s.cursor.column = 0 && ch = '%' then .ok (← s.directive, false)
      else if s.cursor.column = 0 && s.cursor.atMarker '-' then
        .ok (← s.documentMarker .documentStart, false)
      else if s.cursor.column = 0 && s.cursor.atMarker '.' then .ok (← s.documentEnd, false)
      else if s.column < s.indent then .error .indentation
      else .ok (← s.token ch, false)

def run : Nat → Lexer → Except Fault (List Token)
  | 0, s => .ok s.tokens.reverse
  | fuel + 1, s => do
      let (s, done) ← s.step
      if done then .ok s.tokens.reverse else run fuel s

end Lexer

/-- The tokens of a text, the last of them `streamEnd`. -/
def tokens (text : List Char) : Except Fault (List Token) :=
  (Lexer.start (lineText text)).run (text.length + 2)

end WorkspaceTrust.Yaml
