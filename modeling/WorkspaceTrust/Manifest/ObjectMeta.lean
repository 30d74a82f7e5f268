import WorkspaceTrust.Manifest.Shape

/-!
# Names and labels of objects

Every object of a descriptor has an `ObjectMeta`. Objects that are made
for a workspace carry two labels, by which they can be found and removed
together with the workspace.
-/

namespace WorkspaceTrust

/-- The label that holds the workspace id. -/
def workspaceIdLabel : String := "che.workspace_id"

/-- The label that names the program which made an object, and its value here. -/
def managedByLabel : String := "app.kubernetes.io/managed-by"
def managedByValue : String := "devenv"

structure ObjectMeta where
  name : String
  space : Option String
  labels : SortedMap String String
  annotations : SortedMap String String
  extra : Extra ["name", "namespace", "labels", "annotations"]
deriving DecidableEq

namespace ObjectMeta

/-- Metadata with nothing but a name. -/
def named (name : String) : ObjectMeta := ⟨name, none, .empty, .empty, .none⟩

instance : Inhabited ObjectMeta := ⟨named ""⟩

def withNamespace (space : String) (m : ObjectMeta) : ObjectMeta := { m with space := some space }

def withLabel (key value : String) (m : ObjectMeta) : ObjectMeta :=
  { m with labels := m.labels.insert key value }

/-- Metadata of an object that is made for a workspace. -/
def forWorkspace (name workspaceId : String) : ObjectMeta :=
  ((named name).withLabel workspaceIdLabel workspaceId).withLabel managedByLabel managedByValue

def ofJson : Shape.Reader ObjectMeta := fun v => do
  let fields ← Shape.record "ObjectMeta" v
  let annotations ← Shape.optional fields "annotations" (Shape.map Shape.text)
  let labels ← Shape.optional fields "labels" (Shape.map Shape.text)
  let name ← Shape.optional fields "name" Shape.text
  let space ← Shape.optional fields "namespace" (Shape.nullable Shape.text)
  .ok {
    name := name.getD ""
    space := space.join
    labels := labels.getD .empty
    annotations := annotations.getD .empty
    extra := .ofFields fields }

def toJson (m : ObjectMeta) : Json :=
  .obj (("name", .str m.name) :: Shape.present "namespace" (m.space.map .str)
    ++ Shape.nonemptyTexts "labels" m.labels
    ++ Shape.nonemptyTexts "annotations" m.annotations
    ++ m.extra.fields.entries)

end ObjectMeta

end WorkspaceTrust
