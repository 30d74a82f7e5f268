import WorkspaceTrust.Manifest.ObjectMeta

/-!
# Config maps

A config map holds named texts for the containers that mount it.
-/

namespace WorkspaceTrust

structure ConfigMap where
  apiVersion : String
  kind : String
  metadata : ObjectMeta
  data : SortedMap String String
  extra : Extra ["apiVersion", "kind", "metadata", "data"]
deriving DecidableEq

namespace ConfigMap

/-- The kind that the manifests of config maps carry. -/
def kindName : String := "ConfigMap"

def new (metadata : ObjectMeta) : ConfigMap := ⟨"v1", kindName, metadata, .empty, .none⟩

instance : Inhabited ConfigMap := ⟨new default⟩

def withData (data : SortedMap String String) (c : ConfigMap) : ConfigMap := { c with data := data }

def ofJson : Shape.Reader ConfigMap := fun v => do
  let fields ← Shape.record "ConfigMap" v
  let apiVersion ← Shape.optional fields "apiVersion" Shape.text
  let data ← Shape.optional fields "data" (Shape.map Shape.text)
  let kind ← Shape.optional fields "kind" Shape.text
  let metadata ← Shape.optional fields "metadata" ObjectMeta.ofJson
  .ok {
    apiVersion := apiVersion.getD "v1"
    kind := kind.getD kindName
    metadata := metadata.getD default
    data := data.getD .empty
    extra := .ofFields fields }

def toJson (c : ConfigMap) : Json :=
  .obj (("apiVersion", .str c.apiVersion) :: ("kind", .str c.kind)
    :: ("metadata", c.metadata.toJson) :: Shape.nonemptyTexts "data" c.data
    ++ c.extra.fields.entries)

end ConfigMap

end WorkspaceTrust
