import WorkspaceTrust.Proofs.Manifest.Table

/-!
# Reading a manifest keeps every field

For each kind of record: the table of its known fields, in the order in
which they are written, and that what is read is written with every field
kept by this table, and is read again (`keeps`). The records that a
record contains are compared by tables of their own, so that
`rewrite_keeps` speaks of a manifest at every depth.
-/

namespace WorkspaceTrust

open Shape

namespace VolumeMount

def table : List Field :=
  [⟨"name", .required, Eq⟩, ⟨"mountPath", .required, Eq⟩, ⟨"subPath", .omitted .null, Eq⟩,
    ⟨"readOnly", .omitted .null, Eq⟩]

theorem keeps : Keeps (RecordKept table) ofJson toJson := by
  intro v m hv h
  simp only [ofJson, bind_eq_ok] at h
  obtain ⟨fs, hrecord, _, hpath, _, hname, _, hflag, _, hsub, _, hname', _, hpath', h⟩ := h
  cases h
  obtain rfl := eq_object_of_record hrecord hv
  obtain rfl := require_eq_ok hname'
  obtain rfl := require_eq_ok hpath'
  have hname := passes_required keeps_text hv hname
  have hpath := passes_required keeps_text hv hpath
  have hsub := passes_nullable keeps_text hv (by rintro _ ⟨⟩) hsub
  have hflag := passes_nullable keeps_flag hv (by rintro _ ⟨⟩) hflag
  rw [toJson_eq]
  refine keeps_written "VolumeMount" rfl (by decide) hv rfl ?_ fun n hget hextra => ?_
  · exact .cons ⟨rfl, hname.becomes⟩ (.cons ⟨rfl, hpath.becomes⟩ (.cons ⟨rfl, hsub.becomes⟩
      (.cons ⟨rfl, hflag.becomes⟩ .nil)))
  · simp only [ok_bind, require, hextra, join_map_some,
      hname.again (hget "name" _ (by simp [fields])),
      hpath.again (hget "mountPath" _ (by simp [fields])),
      hsub.again (hget "subPath" _ (by simp [fields])),
      hflag.again (hget "readOnly" _ (by simp [fields]))]

end VolumeMount

namespace ConfigMapVolumeSource

def table : List Field := [⟨"name", .required, Eq⟩]

theorem keeps : Keeps (RecordKept table) ofJson toJson := by
  intro v s hv h
  simp only [ofJson, bind_eq_ok] at h
  obtain ⟨fs, hrecord, _, hname, _, hname', h⟩ := h
  cases h
  obtain rfl := eq_object_of_record hrecord hv
  obtain rfl := require_eq_ok hname'
  have hname := passes_required keeps_text hv hname
  rw [toJson_eq]
  refine keeps_written "ConfigMapVolumeSource" rfl (by decide) hv rfl ?_ fun n hget hextra => ?_
  · exact .cons ⟨rfl, hname.becomes⟩ .nil
  · simp only [ok_bind, require, hextra, hname.again (hget "name" _ (by simp [fields]))]

end ConfigMapVolumeSource

namespace Volume

def table : List Field :=
  [⟨"name", .required, Eq⟩, ⟨"configMap", .omitted .null, RecordKept ConfigMapVolumeSource.table⟩]

theorem keeps : Keeps (RecordKept table) ofJson toJson := by
  intro w v hw h
  simp only [ofJson, bind_eq_ok] at h
  obtain ⟨fs, hrecord, _, hmap, _, hname, _, hname', h⟩ := h
  cases h
  obtain rfl := eq_object_of_record hrecord hw
  obtain rfl := require_eq_ok hname'
  have hname := passes_required keeps_text hw hname
  have hmap := passes_nullable ConfigMapVolumeSource.keeps hw (by rintro _ ⟨⟩) hmap
  rw [toJson_eq]
  refine keeps_written "Volume" rfl (by decide) hw rfl ?_ fun n hget hextra => ?_
  · exact .cons ⟨rfl, hname.becomes⟩ (.cons ⟨rfl, hmap.becomes⟩ .nil)
  · simp only [ok_bind, require, hextra, join_map_some,
      hname.again (hget "name" _ (by simp [fields])),
      hmap.again (hget "configMap" _ (by simp [fields]))]

end Volume

namespace Container

def table : List Field :=
  [⟨"name", .filled (.str ""), Eq⟩, ⟨"image", .omitted .null, Eq⟩,
    ⟨"volumeMounts", .omitted (.arr []), ItemsKept (RecordKept VolumeMount.table)⟩]

theorem keeps : Keeps (RecordKept table) ofJson toJson := by
  intro v c hv h
  simp only [ofJson, bind_eq_ok] at h
  obtain ⟨fs, hrecord, _, himage, _, hname, _, hmounts, h⟩ := h
  cases h
  obtain rfl := eq_object_of_record hrecord hv
  have hname := passes_filled keeps_text hv "" rfl hname
  have himage := passes_nullable keeps_text hv (by rintro _ ⟨⟩) himage
  have hmounts := passes_list VolumeMount.keeps hv hmounts
  rw [toJson_eq]
  refine keeps_written "Container" rfl (by decide) hv rfl ?_ fun n hget hextra => ?_
  · exact .cons ⟨rfl, hname.becomes⟩ (.cons ⟨rfl, himage.becomes⟩
      (.cons ⟨rfl, hmounts.becomes⟩ .nil))
  · simp only [ok_bind, hextra, join_map_some, getD_list, Option.getD_some,
      hname.again (hget "name" _ (by simp [fields])),
      himage.again (hget "image" _ (by simp [fields])),
      hmounts.again (hget "volumeMounts" _ (by simp [fields]))]

end Container

namespace PodSpec

def table : List Field :=
  [⟨"initContainers", .omitted (.arr []), ItemsKept (RecordKept Container.table)⟩,
    ⟨"containers", .filled (.arr []), ItemsKept (RecordKept Container.table)⟩,
    ⟨"volumes", .omitted (.arr []), ItemsKept (RecordKept Volume.table)⟩]

theorem keeps : Keeps (RecordKept table) ofJson toJson := by
  intro v s hv h
  simp only [ofJson, bind_eq_ok] at h
  obtain ⟨fs, hrecord, _, hcontainers, _, hinit, _, hvolumes, h⟩ := h
  cases h
  obtain rfl := eq_object_of_record hrecord hv
  have hinit := passes_list Container.keeps hv hinit
  have hcontainers := passes_filled (keeps_list Container.keeps) hv [] rfl hcontainers
  have hvolumes := passes_list Volume.keeps hv hvolumes
  rw [toJson_eq]
  refine keeps_written "PodSpec" rfl (by decide) hv rfl ?_ fun n hget hextra => ?_
  · exact .cons ⟨rfl, hinit.becomes⟩ (.cons ⟨rfl, hcontainers.becomes⟩
      (.cons ⟨rfl, hvolumes.becomes⟩ .nil))
  · simp only [ok_bind, hextra, getD_list, Option.getD_some,
      hinit.again (hget "initContainers" _ (by simp [fields])),
      hcontainers.again (hget "containers" _ (by simp [fields])),
      hvolumes.again (hget "volumes" _ (by simp [fields]))]

end PodSpec

namespace ObjectMeta

def table : List Field :=
  [⟨"name", .filled (.str ""), Eq⟩, ⟨"namespace", .omitted .null, Eq⟩,
    ⟨"labels", .omitted (.obj []), Eq⟩, ⟨"annotations", .omitted (.obj []), Eq⟩]

theorem keeps : Keeps (RecordKept table) ofJson toJson := by
  intro v m hv h
  simp only [ofJson, bind_eq_ok] at h
  obtain ⟨fs, hrecord, _, hannotations, _, hlabels, _, hname, _, hspace, h⟩ := h
  cases h
  obtain rfl := eq_object_of_record hrecord hv
  have hname := passes_filled keeps_text hv "" rfl hname
  have hspace := passes_nullable keeps_text hv (by rintro _ ⟨⟩) hspace
  have hlabels := passes_texts hv hlabels
  have hannotations := passes_texts hv hannotations
  rw [toJson_eq]
  refine keeps_written "ObjectMeta" rfl (by decide) hv rfl ?_ fun n hget hextra => ?_
  · exact .cons ⟨rfl, hname.becomes⟩ (.cons ⟨rfl, hspace.becomes⟩ (.cons ⟨rfl, hlabels.becomes⟩
      (.cons ⟨rfl, hannotations.becomes⟩ .nil)))
  · simp only [ok_bind, hextra, join_map_some, getD_texts, Option.getD_some,
      hname.again (hget "name" _ (by simp [fields])),
      hspace.again (hget "namespace" _ (by simp [fields])),
      hlabels.again (hget "labels" _ (by simp [fields])),
      hannotations.again (hget "annotations" _ (by simp [fields]))]

end ObjectMeta

namespace Pod

def table : List Field :=
  [⟨"apiVersion", .filled (.str "v1"), Eq⟩, ⟨"kind", .filled (.str "Pod"), Eq⟩,
    ⟨"metadata", .filled (.obj [("name", .str "")]), RecordKept ObjectMeta.table⟩,
    ⟨"spec", .filled (.obj [("containers", .arr [])]), RecordKept PodSpec.table⟩]

theorem keeps : Keeps (RecordKept table) ofJson toJson := by
  intro v p hv h
  simp only [ofJson, bind_eq_ok] at h
  obtain ⟨fs, hrecord, _, hversion, _, hkind, _, hmetadata, _, hspec, h⟩ := h
  cases h
  obtain rfl := eq_object_of_record hrecord hv
  have hversion := passes_filled keeps_text hv "v1" rfl hversion
  have hkind := passes_filled keeps_text hv kindName rfl hkind
  have hmetadata := passes_filled ObjectMeta.keeps hv default rfl hmetadata
  have hspec := passes_filled PodSpec.keeps hv default rfl hspec
  rw [toJson_eq]
  refine keeps_written "Pod" rfl (by decide) hv rfl ?_ fun n hget hextra => ?_
  · exact .cons ⟨rfl, hversion.becomes⟩ (.cons ⟨rfl, hkind.becomes⟩ (.cons ⟨rfl, hmetadata.becomes⟩
      (.cons ⟨rfl, hspec.becomes⟩ .nil)))
  · simp only [ok_bind, hextra, Option.getD_some,
      hversion.again (hget "apiVersion" _ (by simp [fields])),
      hkind.again (hget "kind" _ (by simp [fields])),
      hmetadata.again (hget "metadata" _ (by simp [fields])),
      hspec.again (hget "spec" _ (by simp [fields]))]

end Pod

namespace ConfigMap

def table : List Field :=
  [⟨"apiVersion", .filled (.str "v1"), Eq⟩, ⟨"kind", .filled (.str "ConfigMap"), Eq⟩,
    ⟨"metadata", .filled (.obj [("name", .str "")]), RecordKept ObjectMeta.table⟩,
    ⟨"data", .omitted (.obj []), Eq⟩]

theorem keeps : Keeps (RecordKept table) ofJson toJson := by
  intro v c hv h
  simp only [ofJson, bind_eq_ok] at h
  obtain ⟨fs, hrecord, _, hversion, _, hdata, _, hkind, _, hmetadata, h⟩ := h
  cases h
  obtain rfl := eq_object_of_record hrecord hv
  have hversion := passes_filled keeps_text hv "v1" rfl hversion
  have hkind := passes_filled keeps_text hv kindName rfl hkind
  have hmetadata := passes_filled ObjectMeta.keeps hv default rfl hmetadata
  have hdata := passes_texts hv hdata
  rw [toJson_eq]
  refine keeps_written "ConfigMap" rfl (by decide) hv rfl ?_ fun n hget hextra => ?_
  · exact .cons ⟨rfl, hversion.becomes⟩ (.cons ⟨rfl, hkind.becomes⟩ (.cons ⟨rfl, hmetadata.becomes⟩
      (.cons ⟨rfl, hdata.becomes⟩ .nil)))
  · simp only [ok_bind, hextra, getD_texts, Option.getD_some,
      hversion.again (hget "apiVersion" _ (by simp [fields])),
      hkind.again (hget "kind" _ (by simp [fields])),
      hmetadata.again (hget "metadata" _ (by simp [fields])),
      hdata.again (hget "data" _ (by simp [fields]))]

end ConfigMap

namespace Manifest

/-- A manifest that is read and written again is kept by the tables at every depth, and
doing so a second time changes nothing. The manifest is a value in key order, as every value
is that has itself been read. -/
theorem rewrite_keeps {v : Json} (hv : v.Ordered) :
    (∀ w, rewrite Pod.ofJson Pod.toJson v = .ok w →
      RecordKept Pod.table v w ∧ rewrite Pod.ofJson Pod.toJson w = .ok w) ∧
    ∀ w, rewrite ConfigMap.ofJson ConfigMap.toJson v = .ok w →
      RecordKept ConfigMap.table v w ∧ rewrite ConfigMap.ofJson ConfigMap.toJson w = .ok w :=
  ⟨fun _ h => Pod.keeps.rewrite hv h, fun _ h => ConfigMap.keeps.rewrite hv h⟩

/-- The containers and volumes of a pod. In their records some fields have a value, some are
null or empty, and some are absent. -/
def mixedSpec : Json :=
  .obj [
    ("containers", .arr [.obj [("command", .arr []), ("image", .null), ("volumeMounts", .arr [
      .obj [("mountPath", .str "/own"), ("name", .str "own"), ("readOnly", .bool true),
        ("subPath", .null)],
      .obj [("mountPath", .str "/map"), ("mountPropagation", .str "None"), ("name", .str "map"),
        ("readOnly", .null), ("subPath", .str "key")]])]]),
    ("initContainers", .arr [.obj [("image", .str "git"), ("name", .str "fetch"),
      ("volumeMounts", .arr [])]]),
    ("nodeName", .null),
    ("volumes", .arr [
      .obj [("configMap", .obj [("name", .str "settings"), ("optional", .bool true)]),
        ("name", .str "map")],
      .obj [("configMap", .null), ("emptyDir", .obj []), ("name", .str "own")]])]

/-- A document without a kind, and what is written for it as a pod and as a config map. -/
def mixed : Json :=
  .obj [("data", .obj [("localhost", .str "certificate")]),
    ("metadata", .obj [("annotations", .obj []), ("labels", .obj [("app", .str "dev")]),
      ("name", .str "dev"), ("namespace", .str "user"), ("uid", .null)]),
    ("spec", mixedSpec)]

@[inherit_doc mixed]
def mixedPod : Json :=
  .obj [("apiVersion", .str "v1"), ("data", .obj [("localhost", .str "certificate")]),
    ("kind", .str "Pod"),
    ("metadata", .obj [("labels", .obj [("app", .str "dev")]),
      ("name", .str "dev"), ("namespace", .str "user"), ("uid", .null)]),
    ("spec", .obj [
      ("containers", .arr [.obj [("command", .arr []), ("name", .str ""), ("volumeMounts", .arr [
        .obj [("mountPath", .str "/own"), ("name", .str "own"), ("readOnly", .bool true)],
        .obj [("mountPath", .str "/map"), ("mountPropagation", .str "None"), ("name", .str "map"),
          ("subPath", .str "key")]])]]),
      ("initContainers", .arr [.obj [("image", .str "git"), ("name", .str "fetch")]]),
      ("nodeName", .null),
      ("volumes", .arr [
        .obj [("configMap", .obj [("name", .str "settings"), ("optional", .bool true)]),
          ("name", .str "map")],
        .obj [("emptyDir", .obj []), ("name", .str "own")]])])]

@[inherit_doc mixed]
def mixedConfigMap : Json :=
  .obj [("apiVersion", .str "v1"), ("data", .obj [("localhost", .str "certificate")]),
    ("kind", .str "ConfigMap"),
    ("metadata", .obj [("labels", .obj [("app", .str "dev")]),
      ("name", .str "dev"), ("namespace", .str "user"), ("uid", .null)]),
    ("spec", mixedSpec)]

theorem rewrite_keeps_mixed :
    (RecordKept Pod.table mixed mixedPod ∧
      rewrite Pod.ofJson Pod.toJson mixedPod = .ok mixedPod) ∧
    RecordKept ConfigMap.table mixed mixedConfigMap ∧
      rewrite ConfigMap.ofJson ConfigMap.toJson mixedConfigMap = .ok mixedConfigMap := by
  have hkeeps := @rewrite_keeps mixed (by decide +kernel)
  exact ⟨hkeeps.1 mixedPod (by decide +kernel), hkeeps.2 mixedConfigMap (by decide +kernel)⟩

end Manifest

end WorkspaceTrust
