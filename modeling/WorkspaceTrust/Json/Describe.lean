import WorkspaceTrust.Json.Printer
import WorkspaceTrust.Text.Quoted

/-!
# Naming what was found

Messages about a value of the wrong kind name the kind, and show the
value itself if it is a scalar.
-/

namespace WorkspaceTrust.Json

def Number.describe : Number → String
  | .int i => "integer `" ++ toString i ++ "`"
  | .float x => "floating point `" ++ x.write floatNotation ++ "`"

def describe : Json → String
  | .null => "null"
  | .bool b => "boolean `" ++ toString b ++ "`"
  | .num n => n.describe
  | .str s => "string " ++ Text.quoted s
  | .arr _ => "sequence"
  | .obj _ => "map"

end WorkspaceTrust.Json
