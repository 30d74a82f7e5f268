import WorkspaceTrust.Manifest.ObjectMeta
import WorkspaceTrust.Manifest.Volume

/-!
# Pods

A pod runs containers: first its init containers, one after the other,
then its regular ones. `PodSpec.allContainers` lists them in that order.
-/

namespace WorkspaceTrust

structure Container where
  name : String
  image : Option String
  volumeMounts : List VolumeMount
  extra : Extra ["name", "image", "volumeMounts"]
deriving DecidableEq

namespace Container

instance : Inhabited Container := ⟨"", none, [], .none⟩

def ofImage (name image : String) : Container := ⟨name, some image, [], .none⟩

/-- The first mount of the named volume. -/
def volumeMount? (volume : String) (c : Container) : Option VolumeMount :=
  c.volumeMounts.find? fun m => m.name = volume

def ofJson : Shape.Reader Container := fun v => do
  let fields ← Shape.record "Container" v
  let image ← Shape.optional fields "image" (Shape.nullable Shape.text)
  let name ← Shape.optional fields "name" Shape.text
  let mounts ← Shape.optional fields "volumeMounts" (Shape.list VolumeMount.ofJson)
  .ok ⟨name.getD "", image.join, mounts.getD [], .ofFields fields⟩

def toJson (c : Container) : Json :=
  .obj (("name", .str c.name) :: Shape.present "image" (c.image.map .str)
    ++ Shape.nonempty "volumeMounts" (c.volumeMounts.map VolumeMount.toJson)
    ++ c.extra.fields.entries)

end Container

structure PodSpec where
  initContainers : List Container
  containers : List Container
  volumes : List Volume
  extra : Extra ["initContainers", "containers", "volumes"]
deriving DecidableEq

namespace PodSpec

instance : Inhabited PodSpec := ⟨[], [], [], .none⟩

/-- The first volume of that name. -/
def volume? (name : String) (s : PodSpec) : Option Volume := s.volumes.find? fun v => v.name = name

/-- Init containers, then regular ones. -/
def allContainers (s : PodSpec) : List Container := s.initContainers ++ s.containers

/-- Changes every container of both kinds. -/
def mapContainers (f : Container → Container) (s : PodSpec) : PodSpec :=
  { s with initContainers := s.initContainers.map f, containers := s.containers.map f }

theorem allContainers_mapContainers (f : Container → Container) (s : PodSpec) :
    (s.mapContainers f).allContainers = s.allContainers.map f := by
  simp [allContainers, mapContainers]

def ofJson : Shape.Reader PodSpec := fun v => do
  let fields ← Shape.record "PodSpec" v
  let containers ← Shape.optional fields "containers" (Shape.list Container.ofJson)
  let initContainers ← Shape.optional fields "initContainers" (Shape.list Container.ofJson)
  let volumes ← Shape.optional fields "volumes" (Shape.list Volume.ofJson)
  .ok ⟨initContainers.getD [], containers.getD [], volumes.getD [], .ofFields fields⟩

def toJson (s : PodSpec) : Json :=
  .obj (Shape.nonempty "initContainers" (s.initContainers.map Container.toJson)
    ++ ("containers", .arr (s.containers.map Container.toJson))
    :: Shape.nonempty "volumes" (s.volumes.map Volume.toJson)
    ++ s.extra.fields.entries)

end PodSpec

structure Pod where
  apiVersion : String
  kind : String
  metadata : ObjectMeta
  spec : PodSpec
  extra : Extra ["apiVersion", "kind", "metadata", "spec"]
deriving DecidableEq

namespace Pod

/-- The kind that the manifests of pods carry. -/
def kindName : String := "Pod"

def new (name : String) (spec : PodSpec) : Pod := ⟨"v1", kindName, .named name, spec, .none⟩

instance : Inhabited Pod := ⟨new "" default⟩

def ofJson : Shape.Reader Pod := fun v => do
  let fields ← Shape.record "Pod" v
  let apiVersion ← Shape.optional fields "apiVersion" Shape.text
  let kind ← Shape.optional fields "kind" Shape.text
  let metadata ← Shape.optional fields "metadata" ObjectMeta.ofJson
  let spec ← Shape.optional fields "spec" PodSpec.ofJson
  .ok {
    apiVersion := apiVersion.getD "v1"
    kind := kind.getD kindName
    metadata := metadata.getD default
    spec := spec.getD default
    extra := .ofFields fields }

def toJson (p : Pod) : Json :=
  .obj (("apiVersion", .str p.apiVersion) :: ("kind", .str p.kind)
    :: ("metadata", p.metadata.toJson) :: ("spec", p.spec.toJson) :: p.extra.fields.entries)

end Pod

end WorkspaceTrust
