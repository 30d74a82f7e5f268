import WorkspaceTrust.Yaml.Node
import WorkspaceTrust.Json.Basic

/-!
# YAML documents as JSON

`Node.toJson` turns a document into JSON. Keys become text: null and
booleans by their names, whole numbers in decimal, real numbers as they
are spelled. Where two keys have one text only the later entry is left,
without a fault. A real number that is infinite or not a number becomes
null.

`read` reads a text as a stream of documents and drops the empty
ones.
-/

namespace WorkspaceTrust.Yaml

namespace Node

/-- Why a document has no JSON form. -/
inductive Unrepresentable where
  | unresolved
  | keyType
  | realSpelling
deriving DecidableEq, Repr

def Unrepresentable.message : Unrepresentable → String
  | .unresolved => "bad YAML value"
  | .keyType => "unsupported YAML key type"
  | .realSpelling => "invalid float literal"

/-- The text of a scalar that is a key. -/
def keyText : Node → Except Unrepresentable String
  | .str s => .ok s
  | .int i => .ok (toString i)
  | .real s => .ok s
  | .bool true => .ok "true"
  | .bool false => .ok "false"
  | .null => .ok "null"
  | .unresolved | .seq _ | .map _ => .error .keyType

/-- The number that a real spells. The words for infinity and not-a-number that
start with a point are not decimals. -/
def realToJson (text : String) : Except Unrepresentable Json :=
  match Literal.readBinary64 text.toList with
  | none => .error .realSpelling
  | some x => .ok (if x.isFinite then .num (.float x) else .null)

mutual

def toJson : Node → Except Unrepresentable Json
  | .null => .ok .null
  | .bool b => .ok (.bool b)
  | .int i => .ok (.num (.int i))
  | .real s => realToJson s
  | .str s => .ok (.str s)
  | .seq items => do .ok (.arr (← itemsToJson items))
  | .map entries => do .ok (.object (SortedMap.ofList (← entriesToJson entries)))
  | .unresolved => .error .unresolved

def itemsToJson : List Node → Except Unrepresentable (List Json)
  | [] => .ok []
  | n :: ns => do
      let v ← n.toJson
      .ok (v :: (← itemsToJson ns))

def entriesToJson : List (Node × Node) → Except Unrepresentable (List (String × Json))
  | [] => .ok []
  | (k, n) :: es => do
      let k ← k.keyText
      let v ← n.toJson
      .ok ((k, v) :: (← entriesToJson es))

end

/-- Whether a document holds anything. -/
def isEmpty : Node → Bool
  | .null | .unresolved => true
  | _ => false

end Node

/-- Why a text is not a stream of JSON documents in YAML. -/
inductive ReadError where
  | malformed (fault : Fault)
  | unrepresentable (cause : Node.Unrepresentable)
deriving DecidableEq, Repr

/-- The documents of a text that are not empty, as JSON. -/
def read (text : String) : Except ReadError (List Json) := do
  let nodes ← (Node.documents text.toList).mapError .malformed
  ((nodes.filter fun n => !n.isEmpty).mapM Node.toJson).mapError .unrepresentable

end WorkspaceTrust.Yaml
