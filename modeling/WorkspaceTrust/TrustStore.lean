import WorkspaceTrust.FileSystem.Basic

/-!
# Trust stores

A trust store is a directory of certificates, one file for each trusted
host. `FileSystem.filesBelow` lists the regular files in it, at any
depth, in the order of their names within each directory.

Entries whose name starts with a point are passed over: a cluster mounts
the data of a config map as links to files in a directory of such a name.
Links are followed, but not into a directory that is being visited, and
what cannot be resolved is left out. A trust store that is a single file
lists that file; one that cannot be resolved is empty.

The walk ends on every graph of links. Below one place it enters each
directory through a link at most once, and between two links it goes down
the tree, so `FileSystem.walkDepth` bounds the length of its paths.
-/

namespace WorkspaceTrust

namespace FileSystem

/-- Names that start with a point. -/
def isHidden (name : FileName) : Bool := name.head? = some 46

/-- More than the number of names that any path of a walk adds to its root. -/
def walkDepth (fs : FileSystem) : Nat := (fs.entries.size + 2) * (fs.entries.size + 2)

/-- The files at and below an entry of the directory at `path`. Its place is the first of
`visited`, and the others are those of the directories around it; `down` lists the files
below a directory. -/
def visit (fs : FileSystem) (down : List Place → Path → List Path) (visited : List Place)
    (path : Path) (child : FileName × Entry) : List Path :=
  if isHidden child.1 then []
  else
    let path := path.join child.1
    match fs.locate path with
    | .error _ => []
    | .ok place =>
        match child.2, fs.entryAt place with
        | _, some (.file _) => [path]
        | .link _, some .directory =>
            if visited.contains place then [] else down (place :: visited) path
        | _, some .directory => down (place :: visited) path
        | _, _ => []

/-- The files below the directory at `path`, at the first place of `visited`. -/
def walk (fs : FileSystem) : Nat → List Place → Path → List Path
  | 0, _, _ => []
  | depth + 1, visited, path =>
      (fs.children (visited.headD [])).flatMap (fs.visit (fs.walk depth) visited path)

/-- The regular files at and below a path. -/
def filesBelow (fs : FileSystem) (root : Path) : List Path :=
  match fs.locate root with
  | .error _ => []
  | .ok place =>
      match fs.entryAt place with
      | some (.file _) => [root]
      | some .directory => fs.walk fs.walkDepth [place] root
      | _ => []

end FileSystem

/-- A directory of certificates, or none. -/
structure TrustStore where
  root : Option Path
deriving DecidableEq, Repr

namespace TrustStore

/-- The trust store at a path; an empty path is none. -/
def ofRoot (root : Option Path) : TrustStore := ⟨root.filter fun p => !p.isEmpty⟩

def isConfigured (s : TrustStore) : Bool := s.root.isSome

/-- The files of the store. -/
def files (s : TrustStore) (fs : FileSystem) : List Path :=
  match s.root with
  | none => []
  | some root => fs.filesBelow root

end TrustStore

end WorkspaceTrust
