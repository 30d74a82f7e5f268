import WorkspaceTrust.Descriptor.Load
import WorkspaceTrust.Proofs.Manifest.Codec
import WorkspaceTrust.Proofs.Provision.Mounting
import WorkspaceTrust.Proofs.Yaml.Sound

/-!
# What a descriptor always is

A descriptor is `Reachable` if it has been loaded and then provisioned
any number of times, for whatever workspaces and from whatever files.
Each of its objects stands under its own name, which is not empty, has
the kind of its map, and is sound in the fields that nothing interprets
(`Descriptor.Sound`). Loading a document establishes this for its object
(`valid_of_ofDocument`), and provisioning keeps it (`Sound.apply`).
-/

namespace WorkspaceTrust

/-- An object as a document of its kind describes it. -/
structure ConfigMap.Valid (c : ConfigMap) : Prop where
  kind : c.kind = ConfigMap.kindName
  name : c.metadata.name ≠ ""
  sound : c.Sound

@[inherit_doc ConfigMap.Valid]
structure Pod.Valid (p : Pod) : Prop where
  kind : p.kind = Pod.kindName
  name : p.metadata.name ≠ ""
  sound : p.Sound

@[inherit_doc ConfigMap.Valid]
def Manifest.Valid : Manifest → Prop
  | .configMap c => c.Valid
  | .pod p => p.Valid

namespace Descriptor

/-- All objects are valid and stand under their names. -/
structure Sound (d : Descriptor) : Prop where
  configMaps : ∀ e ∈ d.configMaps.entries, e.1 = e.2.metadata.name ∧ e.2.Valid
  pods : ∀ e ∈ d.pods.entries, e.1 = e.2.metadata.name ∧ e.2.Valid

theorem sound_empty : Sound .empty :=
  ⟨fun _ h => absurd h List.not_mem_nil, fun _ h => absurd h List.not_mem_nil⟩

variable {d d' : Descriptor}

theorem Sound.add (h : d.Sound) {m : Manifest} (hm : m.Valid) : (d.add m).Sound := by
  cases m with
  | configMap c =>
    refine ⟨fun e he => ?_, h.pods⟩
    rcases SortedMap.mem_insertEntry he with rfl | he
    · exact ⟨rfl, hm⟩
    · exact h.configMaps e he
  | pod p =>
    refine ⟨h.configMaps, fun e he => ?_⟩
    rcases SortedMap.mem_insertEntry he with rfl | he
    · exact ⟨rfl, hm⟩
    · exact h.pods e he

end Descriptor

/-! ## Loading -/

theorem ConfigMap.kind_of_ofJson {v : Json} {c : ConfigMap} {kind : String} (hv : v.Sound)
    (hkind : (v.get? "kind").bind Json.asString? = some kind) (h : ofJson v = .ok c) :
    c.kind = kind := by
  simp only [ofJson, bind_eq_ok] at h
  obtain ⟨fs, hrecord, _, -, _, -, kind?, hread, _, -, h⟩ := h
  cases h
  rw [Shape.optional_text hkind hv hrecord hread]
  rfl

theorem Pod.kind_of_ofJson {v : Json} {p : Pod} {kind : String} (hv : v.Sound)
    (hkind : (v.get? "kind").bind Json.asString? = some kind) (h : ofJson v = .ok p) :
    p.kind = kind := by
  simp only [ofJson, bind_eq_ok] at h
  obtain ⟨fs, hrecord, _, -, kind?, hread, _, -, _, -, h⟩ := h
  cases h
  rw [Shape.optional_text hkind hv hrecord hread]
  rfl

theorem Manifest.valid_of_ofDocument {position : Nat} {v : Json} {m : Manifest} (hv : v.Sound)
    (h : ofDocument position v = .ok m) : m.Valid := by
  rw [ofDocument] at h
  split at h
  · cases h
  · next kind hkind =>
    obtain ⟨n, hn, h⟩ := bind_eq_ok.1 h
    split at h
    · cases h
    · next hname =>
      cases h
      rw [ofKind] at hn
      split at hn
      · next hpod =>
        obtain ⟨p, hp, rfl⟩ := map_eq_ok.1 hn
        have hp := mapError_eq_ok.1 hp
        exact ⟨hpod ▸ Pod.kind_of_ofJson hv hkind hp, hname, Pod.sound_of_ofJson hv hp⟩
      · split at hn
        · next hmap =>
          obtain ⟨c, hc, rfl⟩ := map_eq_ok.1 hn
          have hc := mapError_eq_ok.1 hc
          exact ⟨hmap ▸ ConfigMap.kind_of_ofJson hv hkind hc, hname, ConfigMap.sound_of_ofJson hv hc⟩
        · cases hn

namespace Descriptor

variable {d d' : Descriptor}

theorem addNew_eq_ok {m : Manifest} : d.addNew m = .ok d' ↔ d.hasNameOf m = false ∧ d' = d.add m := by
  unfold addNew
  split
  · next h => cases m <;> simp [h]
  · next h => simp [h, eq_comm]

theorem Sound.addDocuments {vs : List Json} : ∀ {position : Nat} {d : Descriptor}, d.Sound →
    (∀ v ∈ vs, v.Sound) → Descriptor.addDocuments position vs d = .ok d' → d'.Sound := by
  induction vs with
  | nil =>
    intro position d hd _ h
    cases h
    exact hd
  | cons v vs ih =>
    intro position d hd hvs h
    simp only [Descriptor.addDocuments, bind_eq_ok, addNew_eq_ok] at h
    obtain ⟨m, hm, _, ⟨-, rfl⟩, h⟩ := h
    have hvalid := Manifest.valid_of_ofDocument (hvs v (by simp)) hm
    exact ih (hd.add hvalid) (fun w hw => hvs w (by simp [hw])) h

theorem sound_of_load {text : String} (h : load text = .ok d) : d.Sound := by
  obtain ⟨vs, hvs, h⟩ := bind_eq_ok.1 h
  exact sound_empty.addDocuments (Yaml.sound_of_read (mapError_eq_ok.1 hvs)) h

end Descriptor

/-! ## Provisioning -/

theorem Container.sound_mountCertificates {c : Container} (h : c.Sound) :
    c.mountCertificates.Sound := by
  rw [mountCertificates]
  split
  · exact h
  · refine ⟨fun m hm => ?_, h.extra⟩
    rcases List.mem_append.1 hm with hm | hm
    · exact h.volumeMounts m hm
    · obtain rfl := List.mem_singleton.1 hm
      exact Extra.sound_none

theorem Pod.valid_mountCertificates {p : Pod} (h : p.Valid) (configMap : String) :
    (p.mountCertificates configMap).Valid := by
  have hspec := h.sound.spec
  have hcontainers : ∀ cs : List Container, (∀ c ∈ cs, c.Sound) →
      ∀ c ∈ cs.map Container.mountCertificates, c.Sound := by
    intro cs hcs c hc
    obtain ⟨b, hb, rfl⟩ := List.mem_map.1 hc
    exact Container.sound_mountCertificates (hcs b hb)
  have hvolumes : ∀ v ∈ (p.mountCertificates configMap).spec.volumes, v.Sound := by
    intro v hv
    simp only [mountCertificates] at hv
    split at hv
    · exact hspec.volumes v hv
    · rcases List.mem_append.1 hv with hv | hv
      · exact hspec.volumes v hv
      · obtain rfl := List.mem_singleton.1 hv
        exact ⟨fun s hs => by cases hs; exact Extra.sound_none, Extra.sound_none⟩
  exact ⟨h.kind, h.name, h.sound.metadata, ⟨hcontainers _ hspec.initContainers,
    hcontainers _ hspec.containers, hvolumes, hspec.extra⟩, h.sound.extra⟩

theorem valid_certificateMap (identity : RuntimeIdentity) (certificates : Certificates) :
    (certificateMap identity certificates).Valid := by
  rw [certificateMap_eq]
  refine ⟨rfl, fun hname => ?_, Extra.sound_none, Extra.sound_none⟩
  have hlength := congrArg String.length hname
  rw [certificateMapName, String.length_append] at hlength
  exact absurd (Nat.eq_zero_of_add_eq_zero_left hlength) (by decide)

namespace Descriptor

variable {d d' : Descriptor}

theorem Sound.mountCertificates (h : d.Sound) (configMap : String) :
    (d.mapPods (Pod.mountCertificates configMap)).Sound := by
  refine ⟨h.configMaps, fun e he => ?_⟩
  obtain ⟨e', he', rfl⟩ := List.mem_map.1 he
  obtain ⟨hname, hvalid⟩ := h.pods e' he'
  exact ⟨hname, Pod.valid_mountCertificates hvalid configMap⟩

theorem Sound.apply (h : d.Sound) (identity : RuntimeIdentity) (certificates : Certificates) :
    (VcsCertificateProvisioner.apply identity certificates d).Sound :=
  (h.add (m := .configMap _) (valid_certificateMap identity certificates)).mountCertificates _

/-- Provisioning leaves a sound descriptor sound, whether it succeeds or not. -/
theorem Sound.provision (h : d.Sound) (fs : FileSystem) (identity : RuntimeIdentity)
    (p : VcsCertificateProvisioner) : (p.provision fs identity d).descriptor.Sound := by
  rcases VcsCertificateProvisioner.provision_cases fs identity p d with hsame | ⟨-, -, -, happly⟩
  · rw [hsame]
    exact h
  · rw [happly]
    exact h.apply identity _

/-- The descriptors that can come about: one that has been loaded, and what a run of the
provisioner leaves of one, whether it succeeds or not. -/
inductive Reachable : Descriptor → Prop
  | loaded {text : String} {d : Descriptor} (h : load text = .ok d) : Reachable d
  | provisioned {d : Descriptor} (h : Reachable d) (fs : FileSystem) (identity : RuntimeIdentity)
      (p : VcsCertificateProvisioner) : Reachable (p.provision fs identity d).descriptor

theorem Reachable.sound (h : d.Reachable) : d.Sound := by
  induction h with
  | loaded h => exact sound_of_load h
  | provisioned _ fs identity p ih => exact ih.provision fs identity p

end Descriptor

end WorkspaceTrust
