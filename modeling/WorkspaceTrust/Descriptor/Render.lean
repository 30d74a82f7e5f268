import WorkspaceTrust.Descriptor.Basic
import WorkspaceTrust.Json.Printer
import WorkspaceTrust.Yaml.Printer

/-!
# Writing descriptors

A descriptor is written as a stream of YAML documents, one for each
manifest with its fields in their usual order, or as one JSON object, a
list of the manifests with all keys sorted.
-/

namespace WorkspaceTrust

inductive OutputFormat where
  | yaml
  | json
deriving DecidableEq, Repr

/-- The list object that holds the manifests. -/
def Manifest.listJson (manifests : List Manifest) : Json :=
  .obj [("apiVersion", .str "v1"), ("items", .arr (manifests.map Manifest.toJson)),
    ("kind", .str "List")]

def Manifest.render (format : OutputFormat) (manifests : List Manifest) : String :=
  match format with
  | .yaml => Yaml.write (manifests.map Manifest.toJson)
  | .json => (listJson manifests).sortKeys.write .indented ++ "\n"

/-- The text of a descriptor. -/
def Descriptor.render (format : OutputFormat) (d : Descriptor) : String :=
  Manifest.render format d.manifests

end WorkspaceTrust
