/-!
# Reports of faulty documents

What is told about a document that cannot be used: it describes something
invalid, it does not have the shape it should have, or it cannot be read
at all. A report names the resource, the kind or the file that it is
about.
-/

namespace WorkspaceTrust

inductive Report where
  /-- A well-shaped document that describes something invalid. -/
  | validation (resource message : String)
  /-- A text that is not well formed, or a value of the wrong shape for its kind. -/
  | serialization (kind : Option String) (message : String)
  /-- A file that cannot be read. -/
  | io (path cause : String)
deriving DecidableEq, Repr

namespace Report

def message : Report → String
  | .validation resource message => "validation error for " ++ resource ++ ": " ++ message
  | .serialization _ message => "serialization error: " ++ message
  | .io path cause => "io error on " ++ path ++ ": " ++ cause

/-- What made the problem arise, if that lies outside the document. -/
def cause? : Report → Option String
  | .io _ cause => some cause
  | .validation _ _ | .serialization _ _ => none

end Report

end WorkspaceTrust
