import Mathlib.Data.List.Forall2
import WorkspaceTrust.Proofs.Provision.Run

/-!
# What a successful run mounts

The effect of a run on a descriptor, in terms that do not mention how it
is done. A container `Gains` a mount if it has none of that name, a pod
`Gains` a volume in the same way, and each of its containers of both
kinds follows. The config map of the workspace is a new one with just
the certificates; all other config maps, all other fields and the names
of the pods stay.

`descriptor_of_provision_ok` puts these together for whole descriptors:
it gives the config map under every name and relates the pods under
every name.
-/

namespace WorkspaceTrust

/-! ## The config map -/

/-- The labels of objects that are made for a workspace. -/
def workspaceLabels (workspaceId : String) : SortedMap String String :=
  .ofList [(workspaceIdLabel, workspaceId), (managedByLabel, managedByValue)]

/-- All fields of a config map with the certificates of a workspace. -/
theorem certificateMap_eq (identity : RuntimeIdentity) (certificates : Certificates) :
    certificateMap identity certificates = {
      apiVersion := "v1"
      kind := "ConfigMap"
      metadata := {
        name := certificateMapName identity.workspaceId
        space := identity.space
        labels := workspaceLabels identity.workspaceId
        annotations := .empty
        extra := .none }
      data := certificates
      extra := .none } := by
  unfold certificateMap
  cases identity.space <;> rfl

@[simp] theorem name_certificateMap (identity : RuntimeIdentity) (certificates : Certificates) :
    (certificateMap identity certificates).metadata.name =
      certificateMapName identity.workspaceId := by
  rw [certificateMap_eq]

/-! ## Containers -/

namespace Container

/-- The container mounts the certificate volume. -/
def MountsCertificates (c : Container) : Prop := ∃ m ∈ c.volumeMounts, m.name = certificateVolume

theorem isSome_volumeMount?_iff (c : Container) :
    (c.volumeMount? certificateVolume).isSome = true ↔ c.MountsCertificates := by
  simp [volumeMount?, MountsCertificates]

instance (c : Container) : Decidable c.MountsCertificates :=
  decidable_of_iff _ c.isSome_volumeMount?_iff

/-- `c'` is `c` with one mount of the certificates behind the others, if it had none. -/
structure Gains (c c' : Container) : Prop where
  name_eq : c'.name = c.name
  image_eq : c'.image = c.image
  extra_eq : c'.extra = c.extra
  kept : c.MountsCertificates → c'.volumeMounts = c.volumeMounts
  gained : ¬ c.MountsCertificates →
    c'.volumeMounts = c.volumeMounts ++
      [⟨"che-git-self-signed-cert", "/etc/che/git/cert/", none, some true, .none⟩]

theorem mountCertificates_of_mounts {c : Container} (h : c.MountsCertificates) :
    c.mountCertificates = c :=
  if_pos (c.isSome_volumeMount?_iff.2 h)

theorem mountCertificates_of_not_mounts {c : Container} (h : ¬ c.MountsCertificates) :
    c.mountCertificates = { c with
      volumeMounts := c.volumeMounts ++ [.readonly certificateVolume certificateDirectory] } :=
  if_neg fun hs => h (c.isSome_volumeMount?_iff.1 hs)

theorem gains_mountCertificates (c : Container) : c.Gains c.mountCertificates := by
  by_cases h : c.MountsCertificates
  · rw [mountCertificates_of_mounts h]
    exact ⟨rfl, rfl, rfl, fun _ => rfl, fun hn => absurd h hn⟩
  · rw [mountCertificates_of_not_mounts h]
    exact ⟨rfl, rfl, rfl, fun hm => absurd hm h, fun _ => rfl⟩

/-- Afterwards every container mounts the certificates. -/
theorem mounts_mountCertificates (c : Container) : c.mountCertificates.MountsCertificates := by
  by_cases h : c.MountsCertificates
  · rwa [mountCertificates_of_mounts h]
  · rw [mountCertificates_of_not_mounts h]
    exact ⟨.readonly certificateVolume certificateDirectory, by simp, rfl⟩

/-- The mounts of containers by the mounts that they had. -/
theorem map_volumeMounts_of_gains {cs cs' : List Container} (h : List.Forall₂ Gains cs cs') :
    cs'.map volumeMounts = cs.map fun c =>
      if c.MountsCertificates then c.volumeMounts
      else c.volumeMounts ++
        [⟨"che-git-self-signed-cert", "/etc/che/git/cert/", none, some true, .none⟩] := by
  induction h with
  | nil => rfl
  | cons hgains _ ih =>
    rw [List.map_cons, List.map_cons, ih]
    split
    · next hm => rw [hgains.kept hm]
    · next hm => rw [hgains.gained hm]

end Container

/-! ## Pods -/

namespace PodSpec

/-- The pod has the certificate volume. -/
def HasCertificates (s : PodSpec) : Prop := ∃ v ∈ s.volumes, v.name = certificateVolume

theorem isSome_volume?_iff (s : PodSpec) :
    (s.volume? certificateVolume).isSome = true ↔ s.HasCertificates := by
  simp [volume?, HasCertificates]

instance (s : PodSpec) : Decidable s.HasCertificates := decidable_of_iff _ s.isSome_volume?_iff

end PodSpec

namespace Pod

/-- `p'` is `p` with one volume of the config map behind the others, if it had no
volume of that name, and with the certificates mounted in its containers. -/
structure Gains (configMap : String) (p p' : Pod) : Prop where
  apiVersion_eq : p'.apiVersion = p.apiVersion
  kind_eq : p'.kind = p.kind
  metadata_eq : p'.metadata = p.metadata
  extra_eq : p'.extra = p.extra
  specExtra_eq : p'.spec.extra = p.spec.extra
  kept : p.spec.HasCertificates → p'.spec.volumes = p.spec.volumes
  gained : ¬ p.spec.HasCertificates →
    p'.spec.volumes = p.spec.volumes ++
      [⟨"che-git-self-signed-cert", some ⟨configMap, .none⟩, .none⟩]
  initContainers : List.Forall₂ Container.Gains p.spec.initContainers p'.spec.initContainers
  containers : List.Forall₂ Container.Gains p.spec.containers p'.spec.containers

theorem volumes_mountCertificates_of_has {p : Pod} (h : p.spec.HasCertificates)
    (configMap : String) : (p.mountCertificates configMap).spec.volumes = p.spec.volumes :=
  if_pos (p.spec.isSome_volume?_iff.2 h)

theorem volumes_mountCertificates_of_not_has {p : Pod} (h : ¬ p.spec.HasCertificates)
    (configMap : String) : (p.mountCertificates configMap).spec.volumes =
      p.spec.volumes ++ [.ofConfigMap certificateVolume configMap] :=
  if_neg fun hs => h (p.spec.isSome_volume?_iff.1 hs)

theorem forall₂_gains_map : ∀ cs : List Container,
    List.Forall₂ Container.Gains cs (cs.map Container.mountCertificates)
  | [] => .nil
  | c :: cs => .cons c.gains_mountCertificates (forall₂_gains_map cs)

theorem gains_mountCertificates (configMap : String) (p : Pod) :
    p.Gains configMap (p.mountCertificates configMap) where
  apiVersion_eq := rfl
  kind_eq := rfl
  metadata_eq := rfl
  extra_eq := rfl
  specExtra_eq := rfl
  kept h := volumes_mountCertificates_of_has h configMap
  gained h := volumes_mountCertificates_of_not_has h configMap
  initContainers := forall₂_gains_map p.spec.initContainers
  containers := forall₂_gains_map p.spec.containers

end Pod

/-! ## Descriptors -/

namespace VcsCertificateProvisioner

variable {fs : FileSystem} {identity : RuntimeIdentity} {p : VcsCertificateProvisioner}
  {d : Descriptor}

theorem get?_configMaps_apply (identity : RuntimeIdentity) (certificates : Certificates)
    (d : Descriptor) (name : String) : (apply identity certificates d).configMaps.get? name =
      if certificateMapName identity.workspaceId = name
      then some (certificateMap identity certificates) else d.configMaps.get? name := by
  simp [apply, SortedMap.get?_insert]

theorem get?_pods_apply (identity : RuntimeIdentity) (certificates : Certificates)
    (d : Descriptor) (name : String) : (apply identity certificates d).pods.get? name =
      (d.pods.get? name).map (Pod.mountCertificates (certificateMapName identity.workspaceId)) := by
  simp [apply, SortedMap.get?_mapValues]

/-- A run that succeeds with certificates changes the config map of the workspace,
the volumes of pods and the mounts of containers, each in one way, and nothing else. -/
theorem descriptor_of_provision_ok (hload : (p.loaded fs).isEmpty = false)
    (hok : (provision fs identity p d).result = .ok ()) :
    let after := (provision fs identity p d).descriptor
    let mapName := identity.workspaceId ++ "-che-git-self-signed-cert"
    after.configMaps.get? mapName = some {
      apiVersion := "v1"
      kind := "ConfigMap"
      metadata := {
        name := mapName
        space := identity.space
        labels := workspaceLabels identity.workspaceId
        annotations := .empty
        extra := .none }
      data := p.loaded fs
      extra := .none }
    ∧ (∀ name, name ≠ mapName → after.configMaps.get? name = d.configMaps.get? name)
    ∧ ∀ name, Option.Rel (Pod.Gains mapName) (d.pods.get? name) (after.pods.get? name) := by
  intro after mapName
  have hafter : after = apply identity (p.loaded fs) d := by
    rw [show after = (provision fs identity p d).descriptor from rfl,
      provision_of_ok hload (check_of_provision_ok hload hok)]
  rw [hafter]
  refine ⟨?_, fun name hname => ?_, fun name => ?_⟩
  · rw [get?_configMaps_apply, certificateMap_eq]
    exact if_pos rfl
  · rw [get?_configMaps_apply]
    exact if_neg (Ne.symm hname)
  · rw [get?_pods_apply]
    cases d.pods.get? name with
    | none => exact .none
    | some pod => exact .some (pod.gains_mountCertificates mapName)

/-- The volume stands behind the pod's own, and only the container that mounts certificates
already has no new mount. -/
theorem descriptor_of_provision_ok_one_certificate :
    let after := (provision oneCertificate ⟨"ws", some "user"⟩ ofCerts
      threeContainersDescriptor).descriptor
    let mapName := "ws-che-git-self-signed-cert"
    let mount : VolumeMount :=
      ⟨"che-git-self-signed-cert", "/etc/che/git/cert/", none, some true, .none⟩
    after.configMaps.get? mapName = some {
      apiVersion := "v1"
      kind := "ConfigMap"
      metadata := {
        name := mapName
        space := some "user"
        labels := .ofList [("che.workspace_id", "ws"), ("app.kubernetes.io/managed-by", "devenv")]
        annotations := .empty
        extra := .none }
      data := .ofList [("localhost", "certificate")]
      extra := .none }
    ∧ after.configMaps.get? "settings" = some (.new (.named "settings"))
    ∧ ∃ pod, after.pods.get? "dev" = some pod
      ∧ pod.metadata = .named "dev"
      ∧ pod.spec.volumes =
        [ownVolume, ⟨"che-git-self-signed-cert", some ⟨mapName, .none⟩, .none⟩]
      ∧ pod.spec.initContainers.map Container.volumeMounts = [[mount]]
      ∧ pod.spec.containers.map Container.volumeMounts = [[ownMount, mount], [earlierMount]] := by
  intro after mapName mount
  obtain ⟨hmap, hmaps, hpods⟩ := @descriptor_of_provision_ok oneCertificate ⟨"ws", some "user"⟩
    ofCerts threeContainersDescriptor (by decide +kernel) (by decide +kernel)
  have hloaded : ofCerts.loaded oneCertificate = .ofList [("localhost", "certificate")] := by
    decide +kernel
  have hbefore : threeContainersDescriptor.pods.get? "dev" = some threeContainers := by
    decide +kernel
  refine ⟨?_, (hmaps "settings" (by decide)).trans (by decide +kernel), ?_⟩
  · rw [hloaded] at hmap
    exact hmap.trans (by decide +kernel)
  · have hdev : Option.Rel (Pod.Gains mapName) (some threeContainers) (after.pods.get? "dev") :=
      hbefore ▸ hpods "dev"
    generalize after.pods.get? "dev" = pod? at hdev ⊢
    cases hdev with
    | some hgains =>
      exact ⟨_, rfl, hgains.metadata_eq, hgains.gained (by decide),
        (Container.map_volumeMounts_of_gains hgains.initContainers).trans (by decide +kernel),
        (Container.map_volumeMounts_of_gains hgains.containers).trans (by decide +kernel)⟩

end VcsCertificateProvisioner

end WorkspaceTrust
