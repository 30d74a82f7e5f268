/-!
# Log formats

Logs are plain text or JSON. A program sets up logging once; setting it
up again is an error.
-/

namespace WorkspaceTrust

inductive LogFormat where
  | text
  | json
deriving DecidableEq, Repr

namespace LogFormat

instance : Inhabited LogFormat := ⟨.text⟩

def name : LogFormat → String
  | .text => "text"
  | .json => "json"

/-- A name that no format has, in lower case. -/
structure Unknown where
  name : String
deriving DecidableEq, Repr

def Unknown.message (u : Unknown) : String :=
  "unknown log format '" ++ u.name ++ "', expected text or json"

/-- The text with ASCII letters in lower case. -/
def lowered (s : String) : String := String.ofList (s.toList.map Char.toLower)

/-- The format of a name, in any mixture of cases. -/
def ofName (s : String) : Except Unknown LogFormat :=
  if lowered s = name .text then .ok .text
  else if lowered s = name .json then .ok .json
  else .error ⟨lowered s⟩

end LogFormat

/-- The logging of a program: how it has been set up, if it has. -/
structure Logging where
  installed : Option LogFormat
deriving DecidableEq, Repr

namespace Logging

inductive Fault where
  | alreadyInstalled
deriving DecidableEq, Repr

def Fault.message : Fault → String
  | .alreadyInstalled =>
      "failed to initialize tracing subscriber: "
        ++ "a global default trace dispatcher has already been set"

def install (format : LogFormat) (l : Logging) : Except Fault Logging :=
  match l.installed with
  | none => .ok ⟨some format⟩
  | some _ => .error .alreadyInstalled

end Logging

end WorkspaceTrust
