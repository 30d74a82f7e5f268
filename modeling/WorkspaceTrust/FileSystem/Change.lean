import WorkspaceTrust.FileSystem.Basic

/-!
# Changing a file system

Files are written, directories and links are made, and entries are
removed. A change that fails tells why.
-/

namespace WorkspaceTrust.FileSystem

def put (fs : FileSystem) (place : Place) (e : Entry) : FileSystem :=
  { fs with entries := fs.entries.insert place e }

/-- Makes the directories that are missing on the way along some names. -/
def makeDirectoriesFrom (fs : FileSystem) (place : Place) :
    List FileName → Except Fault FileSystem
  | [] => .ok fs
  | name :: names => do
      match ← fs.follow maxLinks place [name] with
      | .found next =>
          if fs.entryAt next = some .directory then fs.makeDirectoriesFrom next names
          else .error .alreadyExists
      | .vacant next =>
          if next = place ++ [name] then (fs.put next .directory).makeDirectoriesFrom next names
          else .error .alreadyExists

/-- Makes a directory with its parents, unless it is there. -/
def makeDirectory (p : Path) (fs : FileSystem) : Except Fault FileSystem := do
  checkPath p
  fs.makeDirectoriesFrom (fs.base p) p.names

/-- Writes a file, through links, and makes its parent directories. The
parents stay if the file cannot be written. -/
def write (p : Path) (content : List UInt8) (fs : FileSystem) : FileSystem × Option Fault :=
  match (do checkPath p; fs.makeDirectoriesFrom (fs.base p) p.names.dropLast) with
  | .error fault => (fs, some fault)
  | .ok fs =>
      match fs.resolve p with
      | .error fault => (fs, some fault)
      | .ok (.vacant place) => (fs.put place (.file content), none)
      | .ok (.found place) =>
          match fs.entryAt place with
          | some (.file _) => (fs.put place (.file content), none)
          | some .device => (fs, none)
          | _ => (fs, some .isDirectory)

/-- The place that the last name of a path stands for, without following it. -/
def placeOfName (fs : FileSystem) (p : Path) : Except Fault Place := do
  checkPath p
  match p.names.getLast? with
  | none => .error .alreadyExists
  | some name =>
      if name = Path.here ∨ name = Path.up then .error .alreadyExists
      else if maxNameLength < name.length then .error .nameTooLong
      else match ← fs.follow maxLinks (fs.base p) p.names.dropLast with
        | .vacant _ => .error .notFound
        | .found place =>
            if fs.entryAt place = some .directory then .ok (place ++ [name])
            else .error .notDirectory

/-- Makes a link where nothing is. The target is stored as it is. -/
def link (target p : Path) (fs : FileSystem) : Except Fault FileSystem := do
  checkPath target
  let place ← fs.placeOfName p
  if (fs.entryAt place).isSome then .error .alreadyExists
  else if p.endsInSlash then .error .notFound
  else .ok (fs.put place (.link target))

/-- Removes an entry, and a directory with all that is in it. -/
def remove (p : Path) (fs : FileSystem) : Except Fault FileSystem := do
  let place ← fs.placeOfName p
  match fs.entryAt place with
  | none => .error .notFound
  | some e =>
      if p.endsInSlash ∧ e ≠ .directory then .error .notDirectory
      else .ok { fs with entries := fs.entries.filter fun other _ => !place.isPrefixOf other }

end WorkspaceTrust.FileSystem
