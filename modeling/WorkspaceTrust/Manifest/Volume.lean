import WorkspaceTrust.Manifest.Shape

/-!
# Volumes and mounts

A pod lists its volumes by name; a container mounts a volume of its pod
at a path. Of the many kinds of volume only those that hold the data of a
config map are known here.
-/

namespace WorkspaceTrust

/-- The config map that a volume holds. -/
structure ConfigMapVolumeSource where
  name : String
  extra : Extra ["name"]
deriving DecidableEq

namespace ConfigMapVolumeSource

def ofJson : Shape.Reader ConfigMapVolumeSource := fun v => do
  let fields ← Shape.record "ConfigMapVolumeSource" v
  let name ← Shape.optional fields "name" Shape.text
  let name ← Shape.require "name" name
  .ok ⟨name, .ofFields fields⟩

def toJson (s : ConfigMapVolumeSource) : Json :=
  .obj (("name", .str s.name) :: s.extra.fields.entries)

end ConfigMapVolumeSource

structure Volume where
  name : String
  configMap : Option ConfigMapVolumeSource
  extra : Extra ["name", "configMap"]
deriving DecidableEq

namespace Volume

/-- A volume that holds the data of the named config map. -/
def ofConfigMap (name configMap : String) : Volume := ⟨name, some ⟨configMap, .none⟩, .none⟩

def ofJson : Shape.Reader Volume := fun v => do
  let fields ← Shape.record "Volume" v
  let configMap ← Shape.optional fields "configMap" (Shape.nullable ConfigMapVolumeSource.ofJson)
  let name ← Shape.optional fields "name" Shape.text
  let name ← Shape.require "name" name
  .ok ⟨name, configMap.join, .ofFields fields⟩

def toJson (v : Volume) : Json :=
  .obj (("name", .str v.name)
    :: Shape.present "configMap" (v.configMap.map ConfigMapVolumeSource.toJson)
    ++ v.extra.fields.entries)

end Volume

structure VolumeMount where
  /-- The name of the volume. -/
  name : String
  mountPath : String
  subPath : Option String
  readOnly : Option Bool
  extra : Extra ["name", "mountPath", "subPath", "readOnly"]
deriving DecidableEq

namespace VolumeMount

/-- A mount of a whole volume that cannot be written to. -/
def readonly (name mountPath : String) : VolumeMount := ⟨name, mountPath, none, some true, .none⟩

def ofJson : Shape.Reader VolumeMount := fun v => do
  let fields ← Shape.record "VolumeMount" v
  let mountPath ← Shape.optional fields "mountPath" Shape.text
  let name ← Shape.optional fields "name" Shape.text
  let readOnly ← Shape.optional fields "readOnly" (Shape.nullable Shape.flag)
  let subPath ← Shape.optional fields "subPath" (Shape.nullable Shape.text)
  let name ← Shape.require "name" name
  let mountPath ← Shape.require "mountPath" mountPath
  .ok ⟨name, mountPath, subPath.join, readOnly.join, .ofFields fields⟩

def toJson (m : VolumeMount) : Json :=
  .obj (("name", .str m.name) :: ("mountPath", .str m.mountPath)
    :: Shape.present "subPath" (m.subPath.map .str)
    ++ Shape.present "readOnly" (m.readOnly.map .bool)
    ++ m.extra.fields.entries)

end VolumeMount

end WorkspaceTrust
