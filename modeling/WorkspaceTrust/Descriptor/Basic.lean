import WorkspaceTrust.Manifest.ConfigMap
import WorkspaceTrust.Manifest.Pod

/-!
# Descriptors

A descriptor is what a workspace consists of: its pods and its config
maps, each under its name. It is written out as the list of its
manifests, config maps before pods.
-/

namespace WorkspaceTrust

/-- The workspace that is provisioned. Names of generated objects start with its id. -/
structure RuntimeIdentity where
  workspaceId : String
  space : Option String
deriving DecidableEq, Repr

/-- One object of a descriptor. -/
inductive Manifest where
  | configMap (c : ConfigMap)
  | pod (p : Pod)
deriving DecidableEq

namespace Manifest

def toJson : Manifest → Json
  | .configMap c => c.toJson
  | .pod p => p.toJson

def name : Manifest → String
  | .configMap c => c.metadata.name
  | .pod p => p.metadata.name

def kindName : Manifest → String
  | .configMap _ => ConfigMap.kindName
  | .pod _ => Pod.kindName

end Manifest

structure Descriptor where
  pods : SortedMap String Pod
  configMaps : SortedMap String ConfigMap
deriving DecidableEq

namespace Descriptor

def empty : Descriptor := ⟨.empty, .empty⟩

instance : EmptyCollection Descriptor := ⟨empty⟩
instance : Inhabited Descriptor := ⟨empty⟩

/-- Puts a pod in the place of any pod of its name. -/
def addPod (p : Pod) (d : Descriptor) : Descriptor :=
  { d with pods := d.pods.insert p.metadata.name p }

/-- Puts a config map in the place of any config map of its name. -/
def addConfigMap (c : ConfigMap) (d : Descriptor) : Descriptor :=
  { d with configMaps := d.configMaps.insert c.metadata.name c }

def add : Manifest → Descriptor → Descriptor
  | .configMap c => addConfigMap c
  | .pod p => addPod p

/-- Whether there is an object of the same kind and name. -/
def hasNameOf (m : Manifest) (d : Descriptor) : Bool :=
  match m with
  | .configMap c => d.configMaps.contains c.metadata.name
  | .pod p => d.pods.contains p.metadata.name

/-- All objects: config maps, then pods, each in the order of their names. -/
def manifests (d : Descriptor) : List Manifest :=
  d.configMaps.values.map .configMap ++ d.pods.values.map .pod

/-- Changes every pod, leaving it under its name. -/
def mapPods (f : Pod → Pod) (d : Descriptor) : Descriptor := { d with pods := d.pods.mapValues f }

/-! ## What the operations change -/

@[simp] theorem pods_addPod (p : Pod) (d : Descriptor) :
    (d.addPod p).pods = d.pods.insert p.metadata.name p := rfl

@[simp] theorem configMaps_addPod (p : Pod) (d : Descriptor) :
    (d.addPod p).configMaps = d.configMaps := rfl

@[simp] theorem pods_addConfigMap (c : ConfigMap) (d : Descriptor) :
    (d.addConfigMap c).pods = d.pods := rfl

@[simp] theorem configMaps_addConfigMap (c : ConfigMap) (d : Descriptor) :
    (d.addConfigMap c).configMaps = d.configMaps.insert c.metadata.name c := rfl

@[simp] theorem pods_mapPods (f : Pod → Pod) (d : Descriptor) :
    (d.mapPods f).pods = d.pods.mapValues f := rfl

@[simp] theorem configMaps_mapPods (f : Pod → Pod) (d : Descriptor) :
    (d.mapPods f).configMaps = d.configMaps := rfl

end Descriptor

end WorkspaceTrust
