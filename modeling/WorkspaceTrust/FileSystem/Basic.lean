import WorkspaceTrust.FileSystem.Path

/-!
# File systems

A file system maps places to entries. A place is the list of the names
that lead to it from the root, and so the entries of a directory follow
each other in the order of their names. An entry below something that is
not a directory cannot be reached.

`locate` finds the place of a path. Links are followed, a limited number
of them (`maxLinks`), and so it always ends. What is found is never a
link.
-/

namespace WorkspaceTrust

/-- The names that lead from the root to an entry. -/
abbrev Place := List FileName

inductive Entry where
  | file (content : List UInt8)
  | directory
  /-- A link to a path, which starts at the directory that holds the link. -/
  | link (target : Path)
  /-- Something that holds nothing and is not a regular file. -/
  | device
deriving DecidableEq, Repr

structure FileSystem where
  entries : SortedMap Place Entry
  /-- Where relative paths start. -/
  workingDirectory : Place
deriving DecidableEq

namespace FileSystem

instance : Inhabited FileSystem := ⟨⟨.empty, []⟩⟩

/-- Why a file cannot be used. -/
inductive Fault where
  | notFound
  | alreadyExists
  | notDirectory
  | isDirectory
  | nameTooLong
  | tooManyLinks
  | nulByte
  | notText
deriving DecidableEq, Repr

def Fault.message : Fault → String
  | .notFound => "No such file or directory (os error 2)"
  | .alreadyExists => "File exists (os error 17)"
  | .notDirectory => "Not a directory (os error 20)"
  | .isDirectory => "Is a directory (os error 21)"
  | .nameTooLong => "File name too long (os error 36)"
  | .tooManyLinks => "Too many levels of symbolic links (os error 40)"
  | .nulByte => "file name contained an unexpected NUL byte"
  | .notText => "stream did not contain valid UTF-8"

/-- The most bytes in a name. -/
def maxNameLength : Nat := 255

/-- The most bytes in a path. -/
def maxPathLength : Nat := 4095

/-- How many links may be followed on the way to one place. -/
def maxLinks : Nat := 40

/-- What is at a place. The root is a directory. -/
def entryAt (fs : FileSystem) : Place → Option Entry
  | [] => some .directory
  | place => fs.entries.get? place

/-- The entries of a directory with their names. -/
def children (fs : FileSystem) (directory : Place) : List (FileName × Entry) :=
  fs.entries.entries.filterMap fun (place, e) =>
    match place.getLast? with
    | some name => if place.dropLast = directory then some (name, e) else none
    | none => none

/-- Where a path leads: to an entry, or to a directory that has no entry of
the last name. -/
inductive Target where
  | found (place : Place)
  | vacant (place : Place)
deriving DecidableEq, Repr

/-- Goes from a place along some names. At a link, `jump` goes on along the
names of its target and those that are left. -/
def along (fs : FileSystem) (jump : Place → List FileName → Except Fault Target)
    (place : Place) : List FileName → Except Fault Target
  | [] => .ok (.found place)
  | name :: names =>
      if fs.entryAt place ≠ some .directory then .error .notDirectory
      else if name = Path.here then fs.along jump place names
      else if name = Path.up then fs.along jump place.dropLast names
      else if maxNameLength < name.length then .error .nameTooLong
      else match fs.entryAt (place ++ [name]) with
        | none => if names = [] then .ok (.vacant (place ++ [name])) else .error .notFound
        | some (.link target) =>
            jump (if target.isAbsolute then [] else place) (target.steps ++ names)
        | some _ => fs.along jump (place ++ [name]) names

/-- Goes from a place along some names, through at most `links` links. -/
def follow (fs : FileSystem) (links : Nat) : Place → List FileName → Except Fault Target :=
  match links with
  | 0 => fs.along fun _ _ => .error .tooManyLinks
  | links + 1 => fs.along (fs.follow links)

/-- Where the names of a path start. -/
def base (fs : FileSystem) (p : Path) : Place :=
  if p.isAbsolute then [] else fs.workingDirectory

/-- The faults of a path as such. -/
def checkPath (p : Path) : Except Fault Unit :=
  if p.bytes.contains 0 then .error .nulByte
  else if p.isEmpty then .error .notFound
  else if maxPathLength < p.bytes.length then .error .nameTooLong
  else .ok ()

def resolve (fs : FileSystem) (p : Path) : Except Fault Target := do
  checkPath p
  fs.follow maxLinks (fs.base p) p.steps

/-- The place of the entry that a path leads to. -/
def locate (fs : FileSystem) (p : Path) : Except Fault Place := do
  match ← fs.resolve p with
  | .found place => .ok place
  | .vacant _ => .error .notFound

/-- The entry that a path leads to. -/
def entry? (fs : FileSystem) (p : Path) : Option Entry :=
  match fs.locate p with
  | .ok place => fs.entryAt place
  | .error _ => none

/-- The content of a file. -/
def read (fs : FileSystem) (p : Path) : Except Fault (List UInt8) := do
  match fs.entryAt (← fs.locate p) with
  | some (.file content) => .ok content
  | some .device => .ok []
  | some .directory => .error .isDirectory
  | some (.link _) | none => .error .notFound

/-- The text that bytes must hold. -/
def decodeText (content : List UInt8) : Except Fault String :=
  match textOfBytes content with
  | some text => .ok text
  | none => .error .notText

/-- The content of a text file. -/
def readText (fs : FileSystem) (p : Path) : Except Fault String := do
  decodeText (← fs.read p)

end FileSystem

end WorkspaceTrust
