import WorkspaceTrust.Certificates
import WorkspaceTrust.GitConfig
import WorkspaceTrust.Provision.Basic

/-!
# Mounting the certificates of git hosts

The certificates of a trust store are published in one config map for
each workspace. Every pod gets a volume with its data, and every
container mounts that volume at `/etc/che/git/cert/`. Volume and mount
have a fixed name: where a pod has a volume or a container a mount of
that name, nothing is added.

Nothing is changed unless there are certificates, the name of the config
map is valid and no container mounts something else at that path.
-/

namespace WorkspaceTrust

/-- The name of the certificate volume and of its mounts. -/
def certificateVolume : String := "che-git-self-signed-cert"

/-- Where containers find the certificates. -/
def certificateDirectory : String := "/etc/che/git/cert/"

/-- The name of the config map with the certificates of a workspace. -/
def certificateMapName (workspaceId : String) : String := workspaceId ++ "-che-git-self-signed-cert"

/-- A path without the slashes at its end. -/
def trimSlashes (path : String) : String :=
  String.ofList (path.toList.reverse.dropWhile (· = '/')).reverse

namespace Container

/-- A mount of another volume where the certificates would go. -/
def conflictingMount? (c : Container) : Option VolumeMount :=
  if (c.volumeMount? certificateVolume).isSome then none
  else c.volumeMounts.find? fun m =>
    trimSlashes m.mountPath = trimSlashes certificateDirectory

/-- The container with the certificates mounted. -/
def mountCertificates (c : Container) : Container :=
  if (c.volumeMount? certificateVolume).isSome then c
  else { c with
    volumeMounts := c.volumeMounts ++ [.readonly certificateVolume certificateDirectory] }

end Container

namespace Pod

/-- The pod with a volume of the config map, mounted in all of its containers. -/
def mountCertificates (configMap : String) (p : Pod) : Pod :=
  let spec := p.spec
  let volumes :=
    if (spec.volume? certificateVolume).isSome then spec.volumes
    else spec.volumes ++ [.ofConfigMap certificateVolume configMap]
  { p with spec := { spec.mapContainers Container.mountCertificates with volumes := volumes } }

end Pod

namespace Descriptor

/-- The first conflicting mount, by pods, containers and mounts. -/
def mountConflict? (d : Descriptor) : Option ProvisionError :=
  d.pods.entries.findSome? fun (podName, pod) =>
    pod.spec.allContainers.findSome? fun c =>
      c.conflictingMount?.map fun m => .mountConflict podName c.name m.name m.mountPath

end Descriptor

/-- The config map with the certificates of a workspace. -/
def certificateMap (identity : RuntimeIdentity) (certificates : Certificates) : ConfigMap :=
  let m := ObjectMeta.forWorkspace (certificateMapName identity.workspaceId) identity.workspaceId
  let m := match identity.space with
    | some space => m.withNamespace space
    | none => m
  (ConfigMap.new m).withData certificates

structure VcsCertificateProvisioner where
  cache : CertificateCache
deriving DecidableEq

namespace VcsCertificateProvisioner

def name : String := "vcs-ssl-certificate"

/-- A provisioner for the trust store at a path, if there is one. -/
def ofRoot (root : Option Path) : VcsCertificateProvisioner :=
  ⟨CertificateCache.ofStore (TrustStore.ofRoot root)⟩

def isConfigured (p : VcsCertificateProvisioner) : Bool := p.cache.isConfigured

/-- Whether certificates can be mounted for this workspace. -/
def check (identity : RuntimeIdentity) (d : Descriptor) : Except ProvisionError Unit :=
  let mapName := certificateMapName identity.workspaceId
  match ResourceName.check mapName with
  | .error fault => .error (.invalidName mapName fault)
  | .ok () =>
      match d.mountConflict? with
      | some e => .error e
      | none => .ok ()

/-- The descriptor with the certificates published and mounted. -/
def apply (identity : RuntimeIdentity) (certificates : Certificates) (d : Descriptor) :
    Descriptor :=
  (d.addConfigMap (certificateMap identity certificates)).mapPods
    (Pod.mountCertificates (certificateMapName identity.workspaceId))

def provision (fs : FileSystem) (identity : RuntimeIdentity) (p : VcsCertificateProvisioner)
    (d : Descriptor) : Outcome VcsCertificateProvisioner :=
  if !p.isConfigured then ⟨.ok (), p, d⟩
  else
    let (certificates, cache) := p.cache.load fs
    if certificates.isEmpty then ⟨.ok (), ⟨cache⟩, d⟩
    else match check identity d with
      | .error e => ⟨.error e, ⟨cache⟩, d⟩
      | .ok () => ⟨.ok (), ⟨cache⟩, apply identity certificates d⟩

instance : Provisioner VcsCertificateProvisioner where
  name _ := name
  provision := provision

/-- The hosts among the files of the store that have a certificate. -/
def hosts (certificates : Certificates) (files : List Path) : List String :=
  (files.filterMap fun p => p.fileName?.bind textOfBytes).filter fun name =>
    certificates.contains name

/-- The git settings for the mounted certificates. -/
def hostConfigs (fs : FileSystem) (p : VcsCertificateProvisioner) :
    String × VcsCertificateProvisioner :=
  let (certificates, cache) := p.cache.load fs
  (GitConfig.render (hosts certificates (cache.store.files fs)) certificateDirectory, ⟨cache⟩)

end VcsCertificateProvisioner

end WorkspaceTrust
