import WorkspaceTrust.Manifest.ConfigMap
import WorkspaceTrust.Manifest.Pod
import WorkspaceTrust.Proofs.Manifest.Record

/-!
# Manifests are read as they are written

For each kind of record: what it is for its uninterpreted fields to be
`Sound`, that a sound record is written for itself (`stands`), and that a
record is sound that has been read (`sound_of_ofJson`).

The fields of a record are listed with their values (`fields`), absent
ones included, in the order in which they are written; `toJson_eq` says
that this is how they are written.
-/

namespace WorkspaceTrust

open Shape

namespace Shape

variable {α : Type} {read : Reader α} {write : α → Json}

theorem standsIf_text (s : String) : StandsIf text (some s) (some (.str s)) := .present (stands_text s)

@[simp] theorem join_map_some (a? : Option α) : (a?.map some).join = a? := by cases a? <;> rfl

/-- What may be null is absent when it is written. -/
theorem standsIf_nullable {a? : Option α} (h : ∀ a, a? = some a → Stands read a (write a))
    (hne : ∀ a, (write a).sortKeys ≠ .null) :
    StandsIf (nullable read) (a?.map some) (a?.map write) := by
  cases a? with
  | none => exact .absent
  | some a => exact .present ((h a rfl).nullable (hne a))

/-- A list that is absent if it is empty. -/
def listField (write : α → Json) : List α → Option Json
  | [] => none
  | as => some (.arr (as.map write))

theorem nonempty_eq (key : String) (as : List α) :
    nonempty key (as.map write) = written [(key, listField write as)] := by
  cases as <;> rfl

@[simp] theorem getD_list (as : List α) : (if as = [] then none else some as).getD [] = as := by
  cases as <;> rfl

theorem standsIf_list {as : List α} (h : ∀ a ∈ as, Stands read a (write a)) :
    StandsIf (list read) (if as = [] then none else some as) (listField write as) := by
  cases as with
  | nil => exact .absent
  | cons a as => exact .present (stands_list h)

/-- A map that is absent if it is empty. -/
def textsField (m : SortedMap String String) : Option Json :=
  if m.isEmpty then none else some (texts m)

theorem nonemptyTexts_eq (key : String) (m : SortedMap String String) :
    nonemptyTexts key m = written [(key, textsField m)] := by
  rw [nonemptyTexts, textsField]
  split <;> rfl

@[simp] theorem getD_texts (m : SortedMap String String) :
    (if m.isEmpty then none else some m).getD .empty = m := by
  obtain ⟨entries, h⟩ := m
  cases entries <;> rfl

theorem standsIf_texts (m : SortedMap String String) :
    StandsIf (map text) (if m.isEmpty then none else some m) (textsField m) := by
  rw [textsField]
  split
  · exact .absent
  · exact .present (stands_texts m)

theorem present_eq (key : String) (v? : Option Json) : present key v? = written [(key, v?)] := by
  cases v? <;> rfl

theorem written_append (fs gs : List (String × Option Json)) :
    written fs ++ written gs = written (fs ++ gs) := List.filterMap_append.symm

theorem cons_written (key : String) (v : Json) (fs : List (String × Option Json)) :
    (key, v) :: written fs = written ((key, some v) :: fs) := rfl

end Shape

namespace VolumeMount

def Sound (m : VolumeMount) : Prop := m.extra.Sound

def fields (m : VolumeMount) : List (String × Option Json) :=
  [("name", some (.str m.name)), ("mountPath", some (.str m.mountPath)),
    ("subPath", m.subPath.map .str), ("readOnly", m.readOnly.map .bool)]

theorem toJson_eq (m : VolumeMount) :
    m.toJson = .obj (written m.fields ++ m.extra.fields.entries) := by
  simp only [toJson, present_eq, cons_written, written_append]
  rfl

theorem stands {m : VolumeMount} (h : m.Sound) : Stands ofJson m m.toJson := by
  have hname := standsIf_text m.name
  have hpath := standsIf_text m.mountPath
  have hsub : StandsIf (nullable text) (m.subPath.map some) (m.subPath.map .str) :=
    standsIf_nullable (fun s _ => stands_text s) nofun
  have hflag : StandsIf (nullable flag) (m.readOnly.map some) (m.readOnly.map .bool) :=
    standsIf_nullable (fun b _ => stands_flag b) nofun
  rw [toJson_eq]
  refine stands_record "VolumeMount" rfl (by decide) ?_ h fun fs hget hextra => ?_
  · simp only [fields, List.forall_mem_cons]
    exact ⟨hname.fit, hpath.fit, hsub.fit, hflag.fit, nofun⟩
  · simp only [ok_bind, require, hextra, join_map_some,
      optional_of_standsIf hname (hget "name" _ (by simp [fields])),
      optional_of_standsIf hpath (hget "mountPath" _ (by simp [fields])),
      optional_of_standsIf hsub (hget "subPath" _ (by simp [fields])),
      optional_of_standsIf hflag (hget "readOnly" _ (by simp [fields]))]

theorem sound_of_ofJson {v : Json} {m : VolumeMount} (hv : v.Sound) (h : ofJson v = .ok m) :
    m.Sound := by
  simp only [ofJson, bind_eq_ok] at h
  obtain ⟨fs, hrecord, _, -, _, -, _, -, _, -, _, -, _, -, h⟩ := h
  cases h
  exact Extra.sound_ofFields (sound_of_record hrecord hv)

end VolumeMount

namespace ConfigMapVolumeSource

def Sound (s : ConfigMapVolumeSource) : Prop := s.extra.Sound

def fields (s : ConfigMapVolumeSource) : List (String × Option Json) := [("name", some (.str s.name))]

theorem toJson_eq (s : ConfigMapVolumeSource) :
    s.toJson = .obj (written s.fields ++ s.extra.fields.entries) := rfl

theorem stands {s : ConfigMapVolumeSource} (h : s.Sound) : Stands ofJson s s.toJson := by
  have hname := standsIf_text s.name
  rw [toJson_eq]
  refine stands_record "ConfigMapVolumeSource" rfl (by decide) ?_ h fun fs hget hextra => ?_
  · simp only [fields, List.forall_mem_cons]
    exact ⟨hname.fit, nofun⟩
  · simp only [ok_bind, require, hextra,
      optional_of_standsIf hname (hget "name" _ (by simp [fields]))]

theorem sound_of_ofJson {v : Json} {s : ConfigMapVolumeSource} (hv : v.Sound)
    (h : ofJson v = .ok s) : s.Sound := by
  simp only [ofJson, bind_eq_ok] at h
  obtain ⟨fs, hrecord, _, -, _, -, h⟩ := h
  cases h
  exact Extra.sound_ofFields (sound_of_record hrecord hv)

end ConfigMapVolumeSource

namespace Volume

structure Sound (v : Volume) : Prop where
  configMap : ∀ s, v.configMap = some s → s.Sound
  extra : v.extra.Sound

def fields (v : Volume) : List (String × Option Json) :=
  [("name", some (.str v.name)), ("configMap", v.configMap.map ConfigMapVolumeSource.toJson)]

theorem toJson_eq (v : Volume) : v.toJson = .obj (written v.fields ++ v.extra.fields.entries) := by
  simp only [toJson, present_eq, cons_written]
  rfl

theorem stands {v : Volume} (h : v.Sound) : Stands ofJson v v.toJson := by
  have hname := standsIf_text v.name
  have hmap : StandsIf (nullable ConfigMapVolumeSource.ofJson) (v.configMap.map some)
      (v.configMap.map ConfigMapVolumeSource.toJson) :=
    standsIf_nullable (fun s hs => ConfigMapVolumeSource.stands (h.configMap s hs)) nofun
  rw [toJson_eq]
  refine stands_record "Volume" rfl (by decide) ?_ h.extra fun fs hget hextra => ?_
  · simp only [fields, List.forall_mem_cons]
    exact ⟨hname.fit, hmap.fit, nofun⟩
  · simp only [ok_bind, require, hextra, join_map_some,
      optional_of_standsIf hname (hget "name" _ (by simp [fields])),
      optional_of_standsIf hmap (hget "configMap" _ (by simp [fields]))]

theorem sound_of_ofJson {w : Json} {v : Volume} (hw : w.Sound) (h : ofJson w = .ok v) : v.Sound := by
  simp only [ofJson, bind_eq_ok] at h
  obtain ⟨fs, hrecord, configMap, hmap, _, -, _, -, h⟩ := h
  cases h
  have hfields := sound_of_record hrecord hw
  refine ⟨fun s hs => ?_, Extra.sound_ofFields hfields⟩
  obtain rfl : configMap = some (some s) := Option.join_eq_some_iff.1 hs
  obtain ⟨u, hu, hread⟩ := optional_eq_ok hfields hmap
  exact ConfigMapVolumeSource.sound_of_ofJson hu (nullable_eq_ok hread)

end Volume

namespace Container

structure Sound (c : Container) : Prop where
  volumeMounts : ∀ m ∈ c.volumeMounts, m.Sound
  extra : c.extra.Sound

def fields (c : Container) : List (String × Option Json) :=
  [("name", some (.str c.name)), ("image", c.image.map .str),
    ("volumeMounts", listField VolumeMount.toJson c.volumeMounts)]

theorem toJson_eq (c : Container) : c.toJson = .obj (written c.fields ++ c.extra.fields.entries) := by
  simp only [toJson, present_eq, nonempty_eq, cons_written, written_append]
  rfl

theorem stands {c : Container} (h : c.Sound) : Stands ofJson c c.toJson := by
  have hname := standsIf_text c.name
  have himage : StandsIf (nullable text) (c.image.map some) (c.image.map .str) :=
    standsIf_nullable (fun s _ => stands_text s) nofun
  have hmounts := standsIf_list fun m hm => VolumeMount.stands (h.volumeMounts m hm)
  rw [toJson_eq]
  refine stands_record "Container" rfl (by decide) ?_ h.extra fun fs hget hextra => ?_
  · simp only [fields, List.forall_mem_cons]
    exact ⟨hname.fit, himage.fit, hmounts.fit, nofun⟩
  · simp only [ok_bind, hextra, join_map_some, getD_list, Option.getD_some,
      optional_of_standsIf hname (hget "name" _ (by simp [fields])),
      optional_of_standsIf himage (hget "image" _ (by simp [fields])),
      optional_of_standsIf hmounts (hget "volumeMounts" _ (by simp [fields]))]

theorem sound_of_ofJson {v : Json} {c : Container} (hv : v.Sound) (h : ofJson v = .ok c) :
    c.Sound := by
  simp only [ofJson, bind_eq_ok] at h
  obtain ⟨fs, hrecord, _, -, _, -, _, hmounts, h⟩ := h
  cases h
  have hfields := sound_of_record hrecord hv
  exact ⟨forall_of_optionalList hfields hmounts fun _ _ => VolumeMount.sound_of_ofJson,
    Extra.sound_ofFields hfields⟩

end Container

namespace PodSpec

structure Sound (s : PodSpec) : Prop where
  initContainers : ∀ c ∈ s.initContainers, c.Sound
  containers : ∀ c ∈ s.containers, c.Sound
  volumes : ∀ v ∈ s.volumes, v.Sound
  extra : s.extra.Sound

def fields (s : PodSpec) : List (String × Option Json) :=
  [("initContainers", listField Container.toJson s.initContainers),
    ("containers", some (.arr (s.containers.map Container.toJson))),
    ("volumes", listField Volume.toJson s.volumes)]

theorem toJson_eq (s : PodSpec) : s.toJson = .obj (written s.fields ++ s.extra.fields.entries) := by
  simp only [toJson, nonempty_eq, cons_written, written_append]
  rfl

theorem stands {s : PodSpec} (h : s.Sound) : Stands ofJson s s.toJson := by
  have hinit := standsIf_list fun c hc => Container.stands (h.initContainers c hc)
  have hcontainers := StandsIf.present (stands_list fun c hc => Container.stands (h.containers c hc))
  have hvolumes := standsIf_list fun v hv => Volume.stands (h.volumes v hv)
  rw [toJson_eq]
  refine stands_record "PodSpec" rfl (by decide) ?_ h.extra fun fs hget hextra => ?_
  · simp only [fields, List.forall_mem_cons]
    exact ⟨hinit.fit, hcontainers.fit, hvolumes.fit, nofun⟩
  · simp only [ok_bind, hextra, getD_list, Option.getD_some,
      optional_of_standsIf hinit (hget "initContainers" _ (by simp [fields])),
      optional_of_standsIf hcontainers (hget "containers" _ (by simp [fields])),
      optional_of_standsIf hvolumes (hget "volumes" _ (by simp [fields]))]

theorem sound_of_ofJson {v : Json} {s : PodSpec} (hv : v.Sound) (h : ofJson v = .ok s) :
    s.Sound := by
  simp only [ofJson, bind_eq_ok] at h
  obtain ⟨fs, hrecord, _, hcontainers, _, hinit, _, hvolumes, h⟩ := h
  cases h
  have hfields := sound_of_record hrecord hv
  exact ⟨forall_of_optionalList hfields hinit fun _ _ => Container.sound_of_ofJson,
    forall_of_optionalList hfields hcontainers fun _ _ => Container.sound_of_ofJson,
    forall_of_optionalList hfields hvolumes fun _ _ => Volume.sound_of_ofJson, Extra.sound_ofFields hfields⟩

end PodSpec

namespace ObjectMeta

def Sound (m : ObjectMeta) : Prop := m.extra.Sound

def fields (m : ObjectMeta) : List (String × Option Json) :=
  [("name", some (.str m.name)), ("namespace", m.space.map .str), ("labels", textsField m.labels),
    ("annotations", textsField m.annotations)]

theorem toJson_eq (m : ObjectMeta) : m.toJson = .obj (written m.fields ++ m.extra.fields.entries) := by
  simp only [toJson, present_eq, nonemptyTexts_eq, cons_written, written_append]
  rfl

theorem stands {m : ObjectMeta} (h : m.Sound) : Stands ofJson m m.toJson := by
  have hname := standsIf_text m.name
  have hspace : StandsIf (nullable text) (m.space.map some) (m.space.map .str) :=
    standsIf_nullable (fun s _ => stands_text s) nofun
  have hlabels := standsIf_texts m.labels
  have hannotations := standsIf_texts m.annotations
  rw [toJson_eq]
  refine stands_record "ObjectMeta" rfl (by decide) ?_ h fun fs hget hextra => ?_
  · simp only [fields, List.forall_mem_cons]
    exact ⟨hname.fit, hspace.fit, hlabels.fit, hannotations.fit, nofun⟩
  · simp only [ok_bind, hextra, join_map_some, getD_texts, Option.getD_some,
      optional_of_standsIf hname (hget "name" _ (by simp [fields])),
      optional_of_standsIf hspace (hget "namespace" _ (by simp [fields])),
      optional_of_standsIf hlabels (hget "labels" _ (by simp [fields])),
      optional_of_standsIf hannotations (hget "annotations" _ (by simp [fields]))]

theorem sound_of_ofJson {v : Json} {m : ObjectMeta} (hv : v.Sound) (h : ofJson v = .ok m) :
    m.Sound := by
  simp only [ofJson, bind_eq_ok] at h
  obtain ⟨fs, hrecord, _, -, _, -, _, -, _, -, h⟩ := h
  cases h
  exact Extra.sound_ofFields (sound_of_record hrecord hv)

end ObjectMeta

namespace Pod

structure Sound (p : Pod) : Prop where
  metadata : p.metadata.Sound
  spec : p.spec.Sound
  extra : p.extra.Sound

def fields (p : Pod) : List (String × Option Json) :=
  [("apiVersion", some (.str p.apiVersion)), ("kind", some (.str p.kind)),
    ("metadata", some p.metadata.toJson), ("spec", some p.spec.toJson)]

theorem toJson_eq (p : Pod) : p.toJson = .obj (written p.fields ++ p.extra.fields.entries) := rfl

theorem stands {p : Pod} (h : p.Sound) : Stands ofJson p p.toJson := by
  have hversion := standsIf_text p.apiVersion
  have hkind := standsIf_text p.kind
  have hmetadata := StandsIf.present (ObjectMeta.stands h.metadata)
  have hspec := StandsIf.present (PodSpec.stands h.spec)
  rw [toJson_eq]
  refine stands_record "Pod" rfl (by decide) ?_ h.extra fun fs hget hextra => ?_
  · simp only [fields, List.forall_mem_cons]
    exact ⟨hversion.fit, hkind.fit, hmetadata.fit, hspec.fit, nofun⟩
  · simp only [ok_bind, hextra, Option.getD_some,
      optional_of_standsIf hversion (hget "apiVersion" _ (by simp [fields])),
      optional_of_standsIf hkind (hget "kind" _ (by simp [fields])),
      optional_of_standsIf hmetadata (hget "metadata" _ (by simp [fields])),
      optional_of_standsIf hspec (hget "spec" _ (by simp [fields]))]

theorem sound_of_ofJson {v : Json} {p : Pod} (hv : v.Sound) (h : ofJson v = .ok p) : p.Sound := by
  simp only [ofJson, bind_eq_ok] at h
  obtain ⟨fs, hrecord, _, -, _, -, metadata, hmetadata, spec, hspec, h⟩ := h
  cases h
  have hfields := sound_of_record hrecord hv
  refine ⟨?_, ?_, Extra.sound_ofFields hfields⟩
  · cases metadata with
    | none => exact Extra.sound_none
    | some m =>
      obtain ⟨w, hw, hread⟩ := optional_eq_ok hfields hmetadata
      exact ObjectMeta.sound_of_ofJson hw hread
  · cases spec with
    | none => exact ⟨nofun, nofun, nofun, Extra.sound_none⟩
    | some s =>
      obtain ⟨w, hw, hread⟩ := optional_eq_ok hfields hspec
      exact PodSpec.sound_of_ofJson hw hread

end Pod

namespace ConfigMap

structure Sound (c : ConfigMap) : Prop where
  metadata : c.metadata.Sound
  extra : c.extra.Sound

def fields (c : ConfigMap) : List (String × Option Json) :=
  [("apiVersion", some (.str c.apiVersion)), ("kind", some (.str c.kind)),
    ("metadata", some c.metadata.toJson), ("data", textsField c.data)]

theorem toJson_eq (c : ConfigMap) : c.toJson = .obj (written c.fields ++ c.extra.fields.entries) := by
  simp only [toJson, nonemptyTexts_eq, cons_written]
  rfl

theorem stands {c : ConfigMap} (h : c.Sound) : Stands ofJson c c.toJson := by
  have hversion := standsIf_text c.apiVersion
  have hkind := standsIf_text c.kind
  have hmetadata := StandsIf.present (ObjectMeta.stands h.metadata)
  have hdata := standsIf_texts c.data
  rw [toJson_eq]
  refine stands_record "ConfigMap" rfl (by decide) ?_ h.extra fun fs hget hextra => ?_
  · simp only [fields, List.forall_mem_cons]
    exact ⟨hversion.fit, hkind.fit, hmetadata.fit, hdata.fit, nofun⟩
  · simp only [ok_bind, hextra, getD_texts, Option.getD_some,
      optional_of_standsIf hversion (hget "apiVersion" _ (by simp [fields])),
      optional_of_standsIf hkind (hget "kind" _ (by simp [fields])),
      optional_of_standsIf hmetadata (hget "metadata" _ (by simp [fields])),
      optional_of_standsIf hdata (hget "data" _ (by simp [fields]))]

theorem sound_of_ofJson {v : Json} {c : ConfigMap} (hv : v.Sound) (h : ofJson v = .ok c) :
    c.Sound := by
  simp only [ofJson, bind_eq_ok] at h
  obtain ⟨fs, hrecord, _, -, _, -, _, -, metadata, hmetadata, h⟩ := h
  cases h
  have hfields := sound_of_record hrecord hv
  refine ⟨?_, Extra.sound_ofFields hfields⟩
  cases metadata with
  | none => exact Extra.sound_none
  | some m =>
    obtain ⟨w, hw, hread⟩ := optional_eq_ok hfields hmetadata
    exact ObjectMeta.sound_of_ofJson hw hread

end ConfigMap

end WorkspaceTrust
