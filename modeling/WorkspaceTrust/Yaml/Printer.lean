import WorkspaceTrust.Json.Basic
import WorkspaceTrust.Decimal.Shortest
import WorkspaceTrust.Yaml.Scalar.Printer

/-!
# Writing JSON values as YAML

Lists and objects are written in block style, one item or member to a
line or more; empty ones are `[]` and `{}`. A nested collection is
indented by two, except that a list may stand at the indentation of the
key it belongs to. The first item of a collection stands on the line of
the hyphen or question mark in front of it.

A key that is long or has several lines gets a line of its own behind a
question mark, and its value follows behind a colon.

`writeNode n v rest` is `v` behind an indicator and then `rest`, where
the lines of a collection are indented by `n`.
-/

namespace WorkspaceTrust.Yaml

/-- Numbers with an exponent have no sign in front of it unless it is negative. -/
def floatNotation : Binary64.Notation := ⟨false⟩

def writeNumber : Json.Number → List Char
  | .int i => (toString i).toList
  | .float x => (x.write floatNotation).toList

/-- A key with its colon, or on two lines with both of its marks. -/
def writeKey (n : Nat) (key : String) : List Char :=
  if isSimpleKey key.toList then writeInline n key.toList ++ [':']
  else '?' :: ' ' :: writeScalar (n + 2) key.toList ++ spaces n ++ [':']

/-- How far the lines of a value are indented, and what stands between the colon
of its key and the value. -/
def placeValue (n : Nat) (simple : Bool) : Json → Nat × List Char
  | .arr (_ :: _) => if simple then (n, '\n' :: spaces n) else (n + 2, [' '])
  | .obj (_ :: _) => (n + 2, if simple then '\n' :: spaces (n + 2) else [' '])
  | _ => (n + 2, [' '])

mutual

def writeNode (n : Nat) : Json → List Char → List Char
  | .null, rest => "null\n".toList ++ rest
  | .bool true, rest => "true\n".toList ++ rest
  | .bool false, rest => "false\n".toList ++ rest
  | .num x, rest => writeNumber x ++ '\n' :: rest
  | .str s, rest => writeScalar n s.toList ++ rest
  | .arr [], rest => '[' :: ']' :: '\n' :: rest
  | .obj [], rest => '{' :: '}' :: '\n' :: rest
  | .arr (v :: vs), rest => '-' :: ' ' :: writeNode (n + 2) v (writeItems n vs rest)
  | .obj ((k, v) :: ms), rest =>
      let (m, gap) := placeValue n (isSimpleKey k.toList) v
      writeKey n k ++ gap ++ writeNode m v (writeMembers n ms rest)

/-- The items after the first, each on lines of its own. -/
def writeItems (n : Nat) : List Json → List Char → List Char
  | [], rest => rest
  | v :: vs, rest => spaces n ++ '-' :: ' ' :: writeNode (n + 2) v (writeItems n vs rest)

/-- The members after the first, each on lines of its own. -/
def writeMembers (n : Nat) : List (String × Json) → List Char → List Char
  | [], rest => rest
  | (k, v) :: ms, rest =>
      let (m, gap) := placeValue n (isSimpleKey k.toList) v
      spaces n ++ writeKey n k ++ gap ++ writeNode m v (writeMembers n ms rest)

end

/-- What starts a document. -/
def documentStart : List Char := "---\n".toList

/-- A stream of documents. -/
def write (documents : List Json) : String :=
  String.ofList (documents.flatMap fun v => documentStart ++ writeNode 0 v [])

end WorkspaceTrust.Yaml
