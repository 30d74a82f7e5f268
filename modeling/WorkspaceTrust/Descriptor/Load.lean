import WorkspaceTrust.Descriptor.Basic
import WorkspaceTrust.Report
import WorkspaceTrust.Yaml.Json

/-!
# Loading descriptors

A descriptor is loaded from a stream of documents, each a pod or a config
map. The checks on a document are taken in this order: it has a kind, the
kind is known, its fields have the right shape, it has a name, and no
earlier document of that kind has the name. The first fault in the first
faulty document is reported; a document is counted from one, without the
empty documents of the stream.
-/

namespace WorkspaceTrust

/-- Why a text is not a descriptor. -/
inductive LoadError where
  | malformed (fault : Yaml.Fault)
  | unrepresentable (cause : Yaml.Node.Unrepresentable)
  | missingKind (position : Nat)
  | unsupportedKind (position : Nat) (kind : String)
  | shape (kind : String) (fault : ShapeError)
  | missingName (kind : String) (position : Nat)
  | duplicatePod (name : String)
  | duplicateConfigMap (name : String)
deriving DecidableEq, Repr

namespace LoadError

def document (position : Nat) : String := "document " ++ toString position

def report : LoadError → Report
  | .malformed fault => .serialization none fault.message
  | .unrepresentable cause => .serialization none cause.message
  | .missingKind position => .validation (document position) "missing kind"
  | .unsupportedKind position kind =>
      .validation (document position)
        ("unsupported kind '" ++ kind ++ "', expected Pod or ConfigMap")
  | .shape kind fault => .serialization (some kind) fault.message
  | .missingName kind position =>
      .validation (kind ++ " in " ++ document position) "missing metadata.name"
  | .duplicatePod name => .validation ("Pod/" ++ name) "duplicate pod name"
  | .duplicateConfigMap name => .validation ("ConfigMap/" ++ name) "duplicate config map name"

def ofYaml : Yaml.ReadError → LoadError
  | .malformed fault => .malformed fault
  | .unrepresentable cause => .unrepresentable cause

end LoadError

namespace Manifest

/-- The object that a document of a kind describes. -/
def ofKind (position : Nat) (kind : String) (v : Json) : Except LoadError Manifest :=
  if kind = Pod.kindName then ((Pod.ofJson v).mapError (.shape kind)).map .pod
  else if kind = ConfigMap.kindName then
    ((ConfigMap.ofJson v).mapError (.shape kind)).map .configMap
  else .error (.unsupportedKind position kind)

/-- The named object that a document describes. -/
def ofDocument (position : Nat) (v : Json) : Except LoadError Manifest :=
  match (v.get? "kind").bind Json.asString? with
  | none => .error (.missingKind position)
  | some kind => do
      let m ← ofKind position kind v
      if m.name = "" then .error (.missingName kind position) else .ok m

end Manifest

namespace Descriptor

/-- Adds an object whose name is not taken. -/
def addNew (m : Manifest) (d : Descriptor) : Except LoadError Descriptor :=
  if d.hasNameOf m then
    match m with
    | .pod _ => .error (.duplicatePod m.name)
    | .configMap _ => .error (.duplicateConfigMap m.name)
  else .ok (d.add m)

/-- Adds the objects of some documents, the first of which has the given position. -/
def addDocuments : Nat → List Json → Descriptor → Except LoadError Descriptor
  | _, [], d => .ok d
  | position, v :: vs, d => do
      let m ← Manifest.ofDocument position v
      let d ← d.addNew m
      addDocuments (position + 1) vs d

/-- The descriptor with the objects of these documents. -/
def ofDocuments (documents : List Json) : Except LoadError Descriptor :=
  addDocuments 1 documents .empty

/-- The descriptor that a text describes. -/
def load (text : String) : Except LoadError Descriptor := do
  let documents ← (Yaml.read text).mapError .ofYaml
  ofDocuments documents

end Descriptor

end WorkspaceTrust
