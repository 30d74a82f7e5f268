import WorkspaceTrust.SortedMap

/-!
# Paths

A path is a string of bytes; slashes separate the names in it. Several
slashes count as one, and a slash at the end asks for a directory, just
as a point after it would. Paths and names need not be text.
-/

namespace WorkspaceTrust

/-- The name of an entry of a directory. -/
abbrev FileName := List UInt8

structure Path where
  bytes : List UInt8
deriving DecidableEq, Repr

/-- The text that bytes spell in UTF-8. -/
def textOfBytes (bytes : List UInt8) : Option String := String.fromUTF8? ⟨bytes.toArray⟩

/-- The bounds of the bytes after the first byte of a character, in UTF-8. -/
def tailBounds (b : UInt8) : List (UInt8 × UInt8) :=
  let tail := (0x80, 0xBF)
  if 0xC2 ≤ b ∧ b ≤ 0xDF then [tail]
  else if b = 0xE0 then [(0xA0, 0xBF), tail]
  else if b = 0xED then [(0x80, 0x9F), tail]
  else if 0xE1 ≤ b ∧ b ≤ 0xEF then [tail, tail]
  else if b = 0xF0 then [(0x90, 0xBF), tail, tail]
  else if b = 0xF4 then [(0x80, 0x8F), tail, tail]
  else if 0xF1 ≤ b ∧ b ≤ 0xF3 then [tail, tail, tail]
  else []

/-- The number of bytes that stay within bounds, up to the first one that does not. -/
def lengthWithin : List (UInt8 × UInt8) → List UInt8 → Nat
  | (low, high) :: bounds, b :: bs =>
      if low ≤ b ∧ b ≤ high then lengthWithin bounds bs + 1 else 0
  | _, _ => 0

/-- The text of bytes after the first `skipped` ones. One replacement character
stands for a byte that begins no character, or for a character that is cut off. -/
def lossyText : Nat → List UInt8 → String
  | _, [] => ""
  | skipped + 1, _ :: bs => lossyText skipped bs
  | 0, b :: bs =>
      let n := lengthWithin (tailBounds b) bs
      (textOfBytes (b :: bs.take n)).getD "\uFFFD" ++ lossyText n bs

namespace Path

instance : Inhabited Path := ⟨⟨[]⟩⟩

def slash : UInt8 := 47

/-- The name by which a directory contains itself, and the one of its parent. -/
def here : FileName := [46]
def up : FileName := [46, 46]

def ofString (s : String) : Path := ⟨utf8 s⟩

def toString? (p : Path) : Option String := textOfBytes p.bytes

/-- A path in messages. -/
def display (p : Path) : String := p.toString?.getD (lossyText 0 p.bytes)

def isEmpty (p : Path) : Bool := p.bytes.isEmpty

def isAbsolute (p : Path) : Bool := p.bytes.head? = some slash

/-- The path ends in a slash. -/
def endsInSlash (p : Path) : Bool := p.bytes.getLast? = some slash

/-- The pieces between slashes. -/
def pieces : List UInt8 → List FileName
  | [] => [[]]
  | b :: bs =>
      if b = slash then [] :: pieces bs
      else match pieces bs with
        | [] => [[b]]
        | name :: names => (b :: name) :: names

/-- The names in a path. -/
def names (p : Path) : List FileName := (pieces p.bytes).filter fun name => !name.isEmpty

/-- The names that lead to the place of a path. -/
def steps (p : Path) : List FileName := p.names ++ if p.endsInSlash then [here] else []

/-- The names without points; only a point at the beginning of a relative path counts. -/
def components (p : Path) : List FileName :=
  match p.names with
  | [] => []
  | name :: names =>
      (if name = here ∧ p.isAbsolute then [] else [name]) ++ names.filter fun n => n ≠ here

/-- The last name of a path, unless the path ends in points. -/
def fileName? (p : Path) : Option FileName :=
  match p.components.getLast? with
  | some name => if name = here ∨ name = up then none else some name
  | none => none

/-- The path of an entry of the directory at `p`. -/
def join (p : Path) (name : FileName) : Path :=
  ⟨p.bytes ++ (if p.isEmpty || p.endsInSlash then [] else [slash]) ++ name⟩

end Path

end WorkspaceTrust
