import WorkspaceTrust.Yaml.Cursor
import WorkspaceTrust.Decimal.Literal

/-!
# Anchors, tags and directives

The parts of a YAML text that describe nodes rather than being them. A
tag is written `!name`, `!!name`, `!handle!name` or `!<name>`; what it
means depends on the `%TAG` directives before the document, so a tag is
read as a handle and a name. Names may hold characters as `%` escapes.
-/

namespace WorkspaceTrust.Yaml

/-- The characters of a tag inside angle brackets. -/
def isUriChar (c : Char) : Bool :=
  c.isAlphanum || c = '-' || "#;/?:@&=+$,_.!~*'()[]%".toList.contains c

/-- The characters of the name of a tag. -/
def isTagChar (c : Char) : Bool := isUriChar c && !isFlowIndicator c && c ≠ '!'

/-- The characters of the name of an anchor: all that are seen, save flow
indicators and the byte order mark. -/
def isAnchorChar (c : Char) : Bool :=
  !isBlank c && c ≠ '\n' && !isFlowIndicator c && c ≠ '\ufeff'

/-- The value of `%` and two hexadecimal digits. -/
def readPercent : List Char → Except Fault Nat
  | '%' :: a :: b :: _ => match Literal.readNat 16 [a, b] with
    | some n => .ok n
    | none => .error .tagText
  | _ => .error .tagText

/-- The bytes that continue an escaped character, appended to its number. -/
def readContinuation : Nat → List Char → Nat → Except Fault Nat
  | 0, _, code => .ok code
  | n + 1, cs, code => do
      let byte ← readPercent cs
      if byte / 64 = 2 then readContinuation n (cs.drop 3) (code * 256 + byte)
      else .error .tagText

/-- An escaped character and the number of bytes it is written with. The number
of the character is made of its bytes as they stand. -/
def readUriEscape (cs : List Char) : Except Fault (Char × Nat) := do
  let lead ← readPercent cs
  let width ←
    if lead < 128 then .ok 1
    else if lead / 32 = 6 then .ok 2
    else if lead / 16 = 14 then .ok 3
    else if lead / 8 = 30 then .ok 4
    else .error Fault.tagText
  let code ← readContinuation (width - 1) (cs.drop 3) lead
  if code.isValidChar then .ok (Char.ofNat code, width) else .error .tagText

/-- The longest beginning of characters that pass the test, with escapes replaced. -/
def readUri (p : Char → Bool) : Nat → Cursor → Except Fault (List Char × Cursor)
  | 0, c => .ok ([], c)
  | fuel + 1, c =>
      match c.rest with
      | [] => .ok ([], c)
      | ch :: _ =>
          if !p ch then .ok ([], c)
          else if ch = '%' then do
            let (e, width) ← readUriEscape c.rest
            let (text, c) ← readUri p fuel (c.advanceBy (3 * width))
            .ok (e :: text, c)
          else do
            let (text, c) ← readUri p fuel c.advance
            .ok (ch :: text, c)

/-- The name after `&` or `*`. -/
def readAnchor (c : Cursor) : Except Fault (String × Cursor) :=
  let c := c.advance
  let name := c.rest.takeWhile isAnchorChar
  if name = [] then .error .anchorName
  else .ok (String.ofList name, c.advanceBy name.length)

/-- An exclamation mark, word characters, and perhaps another exclamation mark. -/
def readHandle (c : Cursor) : Except Fault (List Char × Cursor) :=
  match c.rest with
  | '!' :: rest =>
      let word := rest.takeWhile isWordChar
      let close := (rest.drop word.length).take 1 |>.filter (· = '!')
      .ok ('!' :: word ++ close, c.advanceBy (1 + word.length + close.length))
  | _ => .error .tagText

/-- Whether a handle has both its exclamation marks. -/
def isFullHandle (handle : List Char) : Bool := 2 ≤ handle.length && handle.getLast? = some '!'

/-- The handle and the name of the tag at the cursor. The lone `!` has an empty
handle and the name `!`; a tag in angle brackets has an empty handle. -/
def readTag (inFlow : Bool) (c : Cursor) : Except Fault (String × String × Cursor) := do
  let (handle, name, c) ←
    if c.peekNext = some '<' then do
      let (name, c) ← readUri isUriChar (c.rest.length + 1) (c.advanceBy 2)
      if c.peek = some '>' then .ok ([], name, c.advance) else .error Fault.tagText
    else do
      let (handle, c) ← readHandle c
      let (name, c) ← readUri isTagChar (c.rest.length + 1) c
      if isFullHandle handle then
        if name = [] then .error .tagText else .ok (handle, name, c)
      else
        match handle.drop 1 ++ name with
        | [] => .ok ([], ['!'], c)
        | name => .ok (['!'], name, c)
  if isSpaceOrEnd c.peek || inFlow && c.peek.any isFlowIndicator then
    .ok (String.ofList handle, String.ofList name, c)
  else .error .tagText

/-! ## Directives -/

inductive Directive where
  | version
  | tag (handle root : String)
  /-- A directive of any other name; its line is skipped. -/
  | reserved
deriving DecidableEq, Repr

/-- A number of at most nine digits. -/
def skipVersionNumber (c : Cursor) : Except Fault Cursor :=
  let digits := c.rest.takeWhile (Literal.isDigit 10)
  if digits = [] ∨ 9 < digits.length then .error .directive
  else .ok (c.advanceBy digits.length)

/-- The text that a tag handle stands for. -/
def readTagRoot (c : Cursor) : Except Fault (List Char × Cursor) :=
  if c.peek = some '!' then do
    let (text, c) ← readUri isUriChar (c.rest.length + 1) c.advance
    .ok ('!' :: text, c)
  else if c.peek.any isTagChar then readUri isUriChar (c.rest.length + 1) c
  else .error .directive

/-- The directive at the cursor and its line break. -/
def readDirective (c : Cursor) : Except Fault (Directive × Cursor) := do
  let c := c.advance
  let name := c.rest.takeWhile isWordChar
  let c := c.advanceBy name.length
  if name = [] || !isSpaceOrEnd c.peek then .error .directive
  else
    let (directive, c) ←
      if name = "YAML".toList then do
        let c ← skipVersionNumber (c.skipWhile isBlank)
        if c.peek ≠ some '.' then .error Fault.directive
        else .ok (Directive.version, ← skipVersionNumber c.advance)
      else if name = "TAG".toList then do
        let (handle, c) ← readHandle (c.skipWhile isBlank)
        if handle ≠ ['!'] && !isFullHandle handle then .error .directive
        else
          let (root, c) ← readTagRoot (c.skipWhile isBlank)
          if isSpaceOrEnd c.peek then
            .ok (Directive.tag (String.ofList handle) (String.ofList root), c)
          else .error .directive
      else .ok (Directive.reserved, c.skipWhile (· ≠ '\n'))
    let (_, c) ← c.skipToContent
    if isLineEnd c.peek then .ok (directive, c.advance) else .error .directive

end WorkspaceTrust.Yaml
