import WorkspaceTrust.Yaml.Cursor

/-!
# Block scalars

A block scalar is announced by `|` or `>`, an optional sign and an
optional digit. Its lines are those indented at least as deep as its
first line (or as the digit says). In a literal scalar (`|`) line breaks
are kept; in a folded one (`>`) a single break between two lines that do
not start with a blank is read as a blank. The sign says what happens to
the line breaks at the end: one is kept without a sign, none with `-`,
all with `+`.

The loops run on fuel; the length of the unread text and one more is enough.
-/

namespace WorkspaceTrust.Yaml

inductive Chomping where
  | strip
  | clip
  | keep
deriving DecidableEq, Repr

structure BlockHeader where
  chomping : Chomping
  /-- Indentation relative to the enclosing block; zero if it is to be detected. -/
  increment : Nat
deriving DecidableEq, Repr

def chompingOf : Char → Option Chomping
  | '-' => some .strip
  | '+' => some .keep
  | _ => none

def incrementOf (c : Char) : Option Nat :=
  if '0' ≤ c ∧ c ≤ '9' then some (c.toNat - 48) else none

/-- The sign and the digit of a header in either order, and how long they are. -/
def readHeader (cs : List Char) : Except Fault (BlockHeader × Nat) :=
  let sign := cs.head?.bind chompingOf
  let digit := cs.head?.bind incrementOf
  let next := cs.tail.head?
  let check (h : BlockHeader) (explicit : Bool) (n : Nat) : Except Fault (BlockHeader × Nat) :=
    if explicit && h.increment = 0 then .error .blockHeader else .ok (h, n)
  match sign, digit with
  | some s, _ => match next.bind incrementOf with
    | some d => check ⟨s, d⟩ true 2
    | none => check ⟨s, 0⟩ false 1
  | none, some d => match next.bind chompingOf with
    | some s => check ⟨s, d⟩ true 2
    | none => check ⟨.clip, d⟩ true 1
  | none, none => .ok (⟨.clip, 0⟩, 0)

/-- Skips empty lines and up to `indent` blanks of the line after them; counts the lines. -/
def skipIndentation (indent : Nat) : Nat → Cursor → Nat → Nat × Cursor
  | 0, c, lines => (lines, c)
  | fuel + 1, c, lines =>
      let room := indent - c.column
      let c := c.advanceBy (min room (c.rest.takeWhile (· = ' ')).length)
      if c.peek = some '\n' then skipIndentation indent fuel c.advance (lines + 1) else (lines, c)

/-- Skips empty lines and the blanks of the line after them; gives the deepest
indentation, the number of lines and the place. -/
def detectIndentation : Nat → Cursor → Nat → Nat → Nat × Nat × Cursor
  | 0, c, deepest, lines => (deepest, lines, c)
  | fuel + 1, c, deepest, lines =>
      let c := c.skipWhile (· = ' ')
      let deepest := max deepest c.column
      if c.peek = some '\n' then detectIndentation fuel c.advance deepest (lines + 1)
      else (deepest, lines, c)

/-- What stands between the last line that was read and the next. -/
structure BlockGap where
  /-- The last line ended with a break. -/
  broken : Bool
  emptyLines : Nat
  /-- The last line started with a blank. -/
  afterBlank : Bool
deriving Repr

/-- The line breaks that a gap contributes before a line. -/
def BlockGap.text (literal : Bool) (g : BlockGap) (startsWithBlank : Bool) : List Char :=
  if !literal && g.broken && !g.afterBlank && !startsWithBlank then
    if g.emptyLines = 0 then [' '] else List.replicate g.emptyLines '\n'
  else List.replicate (g.emptyLines + if g.broken then 1 else 0) '\n'

/-- Reads the content lines; `text` is what has been read, last character first. -/
def blockLines (limit : Nat) (literal : Bool) (indent : Nat) :
    Nat → Cursor → BlockGap → List Char → List Char × BlockGap × Cursor
  | 0, c, g, text => (text, g, c)
  | fuel + 1, c, g, text =>
      if c.column = indent && c.rest ≠ [] && !(indent = 0 && c.atMarker '.') then
        let blank := c.peek.any isBlank
        let line := c.rest.takeWhile (· ≠ '\n')
        let text := line.reverse ++ g.text literal blank ++ text
        let c := c.advanceBy line.length
        if c.rest = [] then (text, ⟨false, 0, blank⟩, c)
        else
          let c := c.advance
          let (lines, c) := skipIndentation indent limit c 0
          blockLines limit literal indent fuel c ⟨true, lines, blank⟩ text
      else (text, g, c)

/-- The line breaks at the end. A last line without a break counts as ended. -/
def chomp (chomping : Chomping) (indent : Nat) (g : BlockGap) (c : Cursor) : List Char :=
  match chomping with
  | .strip => []
  | chomping =>
      let ended := if g.broken then 1 else 0
      let implied := if c.rest = [] && max indent 1 ≤ c.column then 1 else 0
      let kept := if chomping = .keep then g.emptyLines else 0
      List.replicate (ended + implied + kept) '\n'

/-- The block scalar whose `|` or `>` is at the cursor, inside a block at `indent`. -/
def readBlock (limit : Nat) (indent : Int) (c : Cursor) : Except Fault (String × Cursor) := do
  let literal := c.peek = some '|'
  let c := c.advance
  let (header, n) ← readHeader c.rest
  let (_, c) ← (c.advanceBy n).skipToContent
  if !isLineEnd c.peek then .error .blockHeader
  else
    let brokenHeader := c.peek = some '\n'
    let c := c.advance
    if c.peek = some '\t' then .error .tabIndentation
    else
      let (column, lines, c) :=
        if header.increment = 0 then
          let (deepest, lines, c) := detectIndentation limit c 0 0
          (max deepest (indent + 1).toNat, lines, c)
        else
          let column := (max indent 0).toNat + header.increment
          let (lines, c) := skipIndentation column limit c 0
          (column, lines, c)
      if c.rest = [] then
        let breaks := match header.chomping with
          | .strip => 0
          | .clip => if brokenHeader then 1 else 0
          | .keep => if brokenHeader then max lines 1 else 0
        .ok (String.ofList (List.replicate breaks '\n'), c)
      else if c.column < column && indent < c.column then .error .indentation
      else
        let (text, g, c) := blockLines limit literal column limit c ⟨false, lines, false⟩ []
        .ok (String.ofList (chomp header.chomping column g c ++ text).reverse, c)

end WorkspaceTrust.Yaml
