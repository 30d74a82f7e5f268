import WorkspaceTrust.Descriptor.Render
import WorkspaceTrust.Proofs.Json.RoundTrip
import WorkspaceTrust.Proofs.Manifest.Codec

/-!
# The list object is read as it is written

The fields that a record knows hold texts, flags and other records, so
whatever number stands in a manifest comes from a field that nothing
interprets. `extras` are the values of those fields, at every depth; if
the numbers in them are whole, so are those of the manifest
(`numbersWhole_toJson`). Sorting keys does not change that
(`numbersWhole_sortKeys`), and hence what is read of a descriptor that
has been written as JSON is the list object with its manifests
(`Descriptor.read_render`).
-/

namespace WorkspaceTrust

open Shape

/-! ## Sorting keys keeps numbers whole -/

namespace Json

mutual

theorem numbersWhole_sortKeys : (v : Json) → v.NumbersWhole → v.sortKeys.NumbersWhole
  | .null, h | .bool _, h | .num _, h | .str _, h => h
  | .arr vs, h => numbersWhole_arr.2 (numbersWhole_sortKeysItems vs (numbersWhole_arr.1 h))
  | .obj ms, h => numbersWhole_obj.2 fun m hm =>
      numbersWhole_sortKeysMembers ms (numbersWhole_obj.1 h) m (SortedMap.mem_of_mem_ofList hm)

theorem numbersWhole_sortKeysItems : (vs : List Json) → (∀ v ∈ vs, v.NumbersWhole) →
    ∀ v ∈ sortKeysItems vs, v.NumbersWhole
  | [], _ => nofun
  | v :: vs, h => by
    obtain ⟨hv, hvs⟩ := List.forall_mem_cons.1 h
    exact List.forall_mem_cons.2 ⟨numbersWhole_sortKeys v hv, numbersWhole_sortKeysItems vs hvs⟩

theorem numbersWhole_sortKeysMembers : (ms : List (String × Json)) →
    (∀ m ∈ ms, m.2.NumbersWhole) → ∀ m ∈ sortKeysMembers ms, m.2.NumbersWhole
  | [], _ => nofun
  | (k, v) :: ms, h => by
    obtain ⟨hv, hms⟩ := List.forall_mem_cons.1 h
    exact List.forall_mem_cons.2 ⟨numbersWhole_sortKeys v hv, numbersWhole_sortKeysMembers ms hms⟩

end

theorem numbersWhole_text (s : String) : (str s).NumbersWhole := fun _ hn => by simp [leaves] at hn

theorem numbersWhole_flag (b : Bool) : (bool b).NumbersWhole := fun _ hn => by simp [leaves] at hn

end Json

/-! ## Fields and records -/

namespace Shape

variable {α : Type} {write : α → Json}

/-- A field holds no number that is not whole, if it is there at all. -/
def WholeIf (v? : Option Json) : Prop := ∀ v, v? = some v → v.NumbersWhole

theorem wholeIf_none : WholeIf none := fun _ hv => by cases hv

theorem wholeIf_some {v : Json} (h : v.NumbersWhole) : WholeIf (some v) := by
  rintro _ ⟨⟩
  exact h

theorem wholeIf_text (s : String) : WholeIf (some (.str s)) := wholeIf_some (Json.numbersWhole_text s)

theorem wholeIf_map {a? : Option α} (h : ∀ a, a? = some a → (write a).NumbersWhole) :
    WholeIf (a?.map write) := by
  intro v hv
  obtain ⟨a, ha, rfl⟩ := Option.map_eq_some_iff.1 hv
  exact h a ha

theorem numbersWhole_items {as : List α} (h : ∀ a ∈ as, (write a).NumbersWhole) :
    (Json.arr (as.map write)).NumbersWhole := by
  refine Json.numbersWhole_arr.2 fun v hv => ?_
  obtain ⟨a, ha, rfl⟩ := List.mem_map.1 hv
  exact h a ha

theorem wholeIf_list {as : List α} (h : ∀ a ∈ as, (write a).NumbersWhole) :
    WholeIf (listField write as) := by
  cases as with
  | nil => exact wholeIf_none
  | cons a as => exact wholeIf_some (numbersWhole_items h)

theorem wholeIf_texts (m : SortedMap String String) : WholeIf (textsField m) := by
  rw [textsField]
  split
  · exact wholeIf_none
  · refine wholeIf_some (Json.numbersWhole_obj.2 fun e he => ?_)
    obtain ⟨e', -, rfl⟩ := List.mem_map.1 he
    exact Json.numbersWhole_text e'.2

theorem numbersWhole_record {known : List String} {fs : List (String × Option Json)}
    {e : Extra known} (hfs : ∀ f ∈ fs, WholeIf f.2) (he : ∀ v ∈ e.fields.values, v.NumbersWhole) :
    (Json.obj (written fs ++ e.fields.entries)).NumbersWhole := by
  refine Json.numbersWhole_obj.2 fun m hm => ?_
  rcases List.mem_append.1 hm with hm | hm
  · exact hfs _ (mem_written.1 hm) m.2 rfl
  · exact he m.2 (List.mem_map_of_mem hm)

end Shape

/-! ## Manifests -/

namespace VolumeMount

/-- The values of the fields that nothing interprets, here and in all records below. -/
def extras (m : VolumeMount) : List Json := m.extra.fields.values

theorem numbersWhole_toJson {m : VolumeMount} (h : ∀ v ∈ m.extras, v.NumbersWhole) :
    m.toJson.NumbersWhole := by
  have hsub : WholeIf (m.subPath.map .str) := wholeIf_map fun s _ => Json.numbersWhole_text s
  have hflag : WholeIf (m.readOnly.map .bool) := wholeIf_map fun b _ => Json.numbersWhole_flag b
  rw [toJson_eq]
  refine numbersWhole_record ?_ h
  simp only [fields, List.forall_mem_cons]
  exact ⟨wholeIf_text m.name, wholeIf_text m.mountPath, hsub, hflag, List.forall_mem_nil _⟩

end VolumeMount

namespace ConfigMapVolumeSource

@[inherit_doc VolumeMount.extras]
def extras (s : ConfigMapVolumeSource) : List Json := s.extra.fields.values

theorem numbersWhole_toJson {s : ConfigMapVolumeSource} (h : ∀ v ∈ s.extras, v.NumbersWhole) :
    s.toJson.NumbersWhole := by
  rw [toJson_eq]
  refine numbersWhole_record ?_ h
  simp only [fields, List.forall_mem_cons]
  exact ⟨wholeIf_text s.name, List.forall_mem_nil _⟩

end ConfigMapVolumeSource

namespace Volume

@[inherit_doc VolumeMount.extras]
def extras (v : Volume) : List Json :=
  v.configMap.toList.flatMap ConfigMapVolumeSource.extras ++ v.extra.fields.values

theorem numbersWhole_toJson {v : Volume} (h : ∀ w ∈ v.extras, w.NumbersWhole) :
    v.toJson.NumbersWhole := by
  obtain ⟨hbelow, hextra⟩ := List.forall_mem_append.1 h
  have hmap : WholeIf (v.configMap.map ConfigMapVolumeSource.toJson) :=
    wholeIf_map fun s hs => ConfigMapVolumeSource.numbersWhole_toJson fun w hw =>
      hbelow w (List.mem_flatMap.2 ⟨s, Option.mem_toList.2 hs, hw⟩)
  rw [toJson_eq]
  refine numbersWhole_record ?_ hextra
  simp only [fields, List.forall_mem_cons]
  exact ⟨wholeIf_text v.name, hmap, List.forall_mem_nil _⟩

end Volume

namespace Container

@[inherit_doc VolumeMount.extras]
def extras (c : Container) : List Json :=
  c.volumeMounts.flatMap VolumeMount.extras ++ c.extra.fields.values

theorem numbersWhole_toJson {c : Container} (h : ∀ v ∈ c.extras, v.NumbersWhole) :
    c.toJson.NumbersWhole := by
  obtain ⟨hbelow, hextra⟩ := List.forall_mem_append.1 h
  have himage : WholeIf (c.image.map .str) := wholeIf_map fun s _ => Json.numbersWhole_text s
  have hmounts : WholeIf (listField VolumeMount.toJson c.volumeMounts) :=
    wholeIf_list fun m hm => VolumeMount.numbersWhole_toJson fun v hv =>
      hbelow v (List.mem_flatMap.2 ⟨m, hm, hv⟩)
  rw [toJson_eq]
  refine numbersWhole_record ?_ hextra
  simp only [fields, List.forall_mem_cons]
  exact ⟨wholeIf_text c.name, himage, hmounts, List.forall_mem_nil _⟩

end Container

namespace PodSpec

@[inherit_doc VolumeMount.extras]
def extras (s : PodSpec) : List Json :=
  s.allContainers.flatMap Container.extras ++ s.volumes.flatMap Volume.extras
    ++ s.extra.fields.values

theorem numbersWhole_toJson {s : PodSpec} (h : ∀ v ∈ s.extras, v.NumbersWhole) :
    s.toJson.NumbersWhole := by
  obtain ⟨hbelow, hextra⟩ := List.forall_mem_append.1 h
  obtain ⟨hcontainers, hvolumes⟩ := List.forall_mem_append.1 hbelow
  have hcontainer : ∀ c ∈ s.allContainers, c.toJson.NumbersWhole := fun c hc =>
    Container.numbersWhole_toJson fun v hv => hcontainers v (List.mem_flatMap.2 ⟨c, hc, hv⟩)
  obtain ⟨hinit, hregular⟩ := List.forall_mem_append.1 hcontainer
  have hvolume : WholeIf (listField Volume.toJson s.volumes) :=
    wholeIf_list fun v hv => Volume.numbersWhole_toJson fun w hw =>
      hvolumes w (List.mem_flatMap.2 ⟨v, hv, hw⟩)
  rw [toJson_eq]
  refine numbersWhole_record ?_ hextra
  simp only [fields, List.forall_mem_cons]
  exact ⟨wholeIf_list hinit, wholeIf_some (numbersWhole_items hregular), hvolume,
    List.forall_mem_nil _⟩

end PodSpec

namespace ObjectMeta

@[inherit_doc VolumeMount.extras]
def extras (m : ObjectMeta) : List Json := m.extra.fields.values

theorem numbersWhole_toJson {m : ObjectMeta} (h : ∀ v ∈ m.extras, v.NumbersWhole) :
    m.toJson.NumbersWhole := by
  have hspace : WholeIf (m.space.map .str) := wholeIf_map fun s _ => Json.numbersWhole_text s
  rw [toJson_eq]
  refine numbersWhole_record ?_ h
  simp only [fields, List.forall_mem_cons]
  exact ⟨wholeIf_text m.name, hspace, wholeIf_texts m.labels, wholeIf_texts m.annotations,
    List.forall_mem_nil _⟩

end ObjectMeta

namespace Pod

@[inherit_doc VolumeMount.extras]
def extras (p : Pod) : List Json := p.metadata.extras ++ p.spec.extras ++ p.extra.fields.values

theorem numbersWhole_toJson {p : Pod} (h : ∀ v ∈ p.extras, v.NumbersWhole) :
    p.toJson.NumbersWhole := by
  obtain ⟨hbelow, hextra⟩ := List.forall_mem_append.1 h
  obtain ⟨hmetadata, hspec⟩ := List.forall_mem_append.1 hbelow
  rw [toJson_eq]
  refine numbersWhole_record ?_ hextra
  simp only [fields, List.forall_mem_cons]
  exact ⟨wholeIf_text p.apiVersion, wholeIf_text p.kind,
    wholeIf_some (ObjectMeta.numbersWhole_toJson hmetadata),
    wholeIf_some (PodSpec.numbersWhole_toJson hspec), List.forall_mem_nil _⟩

end Pod

namespace ConfigMap

@[inherit_doc VolumeMount.extras]
def extras (c : ConfigMap) : List Json := c.metadata.extras ++ c.extra.fields.values

theorem numbersWhole_toJson {c : ConfigMap} (h : ∀ v ∈ c.extras, v.NumbersWhole) :
    c.toJson.NumbersWhole := by
  obtain ⟨hmetadata, hextra⟩ := List.forall_mem_append.1 h
  rw [toJson_eq]
  refine numbersWhole_record ?_ hextra
  simp only [fields, List.forall_mem_cons]
  exact ⟨wholeIf_text c.apiVersion, wholeIf_text c.kind,
    wholeIf_some (ObjectMeta.numbersWhole_toJson hmetadata), wholeIf_texts c.data,
    List.forall_mem_nil _⟩

end ConfigMap

namespace Manifest

@[inherit_doc VolumeMount.extras]
def extras : Manifest → List Json
  | .configMap c => c.extras
  | .pod p => p.extras

theorem numbersWhole_toJson {m : Manifest} (h : ∀ v ∈ m.extras, v.NumbersWhole) :
    m.toJson.NumbersWhole := by
  cases m with
  | configMap c => exact ConfigMap.numbersWhole_toJson h
  | pod p => exact Pod.numbersWhole_toJson h

/-! ## The list -/

theorem sortKeys_listJson (ms : List Manifest) : (listJson ms).sortKeys =
    .obj [("apiVersion", .str "v1"), ("items", .arr (ms.map fun m => m.toJson.sortKeys)),
      ("kind", .str "List")] := by
  have hitems : Json.sortKeysItems (ms.map toJson) = ms.map fun m => m.toJson.sortKeys := by
    rw [Json.sortKeysItems_eq_map, List.map_map]
    rfl
  rw [← hitems]
  rfl

theorem numbersWhole_listJson {ms : List Manifest} (h : ∀ m ∈ ms, m.toJson.NumbersWhole) :
    (listJson ms).NumbersWhole := by
  refine Json.numbersWhole_obj.2 ?_
  simp only [List.forall_mem_cons]
  exact ⟨Json.numbersWhole_text "v1", numbersWhole_items h, Json.numbersWhole_text "List",
    List.forall_mem_nil _⟩

end Manifest

namespace Descriptor

@[inherit_doc VolumeMount.extras]
def extras (d : Descriptor) : List Json := d.manifests.flatMap Manifest.extras

/-- The JSON text of a descriptor without floats is read as the list object of version `v1` with
the values of its config maps and then of its pods, both in the order of their names. -/
theorem read_render {d : Descriptor} (h : ∀ v ∈ d.extras, v.NumbersWhole) :
    Json.read (d.render .json) = .ok (.obj [("apiVersion", .str "v1"),
      ("items", .arr (d.configMaps.values.map (fun c => c.toJson.sortKeys)
        ++ d.pods.values.map fun p => p.toJson.sortKeys)),
      ("kind", .str "List")]) := by
  have hmanifests : ∀ m ∈ d.manifests, m.toJson.NumbersWhole := fun m hm =>
    Manifest.numbersWhole_toJson fun v hv => h v (List.mem_flatMap.2 ⟨m, hm, hv⟩)
  have hlist := Json.numbersWhole_sortKeys _ (Manifest.numbersWhole_listJson hmanifests)
  have hvalue : (Manifest.listJson d.manifests).sortKeys = .obj [("apiVersion", .str "v1"),
      ("items", .arr (d.configMaps.values.map (fun c => c.toJson.sortKeys)
        ++ d.pods.values.map fun p => p.toJson.sortKeys)),
      ("kind", .str "List")] := by
    rw [Manifest.sortKeys_listJson, manifests, List.map_append, List.map_map, List.map_map]
    rfl
  rw [render, Manifest.render, Json.read_write .indented hlist,
    Json.sortKeys_of_ordered _ (Json.ordered_sortKeys _), hvalue]

/-- A descriptor with a text that needs every kind of escape, with the least and the greatest
number, and with empty values at several depths. -/
def awkward : Descriptor :=
  let status := .obj [("\"\\", .arr [.arr [], .obj [], .num (.int 18446744073709551615)]),
    ("λ", .obj [("", .num (.int (-9223372036854775808)))])]
  let pod : Pod := { Pod.new "dev" default with extra := .ofFields (.ofList [("status", status)]) }
  let data := SortedMap.ofList [("key", "\"\\/\n\r\t\x08\x0c\x01\x1f\x7f 😀")]
  (empty.addPod pod).addConfigMap ((ConfigMap.new (.named "keys")).withData data)

theorem read_render_awkward : (∀ v ∈ awkward.extras, v.NumbersWhole) ∧
    Json.read (awkward.render .json) = .ok (.obj [("apiVersion", .str "v1"),
      ("items", .arr [
        .obj [("apiVersion", .str "v1"),
          ("data", .obj [("key", .str "\"\\/\n\r\t\x08\x0c\x01\x1f\x7f 😀")]),
          ("kind", .str "ConfigMap"), ("metadata", .obj [("name", .str "keys")])],
        .obj [("apiVersion", .str "v1"), ("kind", .str "Pod"),
          ("metadata", .obj [("name", .str "dev")]), ("spec", .obj [("containers", .arr [])]),
          ("status", .obj [("\"\\", .arr [.arr [], .obj [], .num (.int 18446744073709551615)]),
            ("λ", .obj [("", .num (.int (-9223372036854775808)))])])]]),
      ("kind", .str "List")]) := by
  have hwhole : ∀ v ∈ awkward.extras, v.NumbersWhole := by decide +kernel
  refine ⟨hwhole, (read_render hwhole).trans ?_⟩
  decide +kernel

end Descriptor

end WorkspaceTrust
