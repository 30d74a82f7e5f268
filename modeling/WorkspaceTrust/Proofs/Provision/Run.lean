import WorkspaceTrust.Provision.VcsCertificates

/-!
# What one run of the certificate provisioner does

A run is decided by three questions in a row: does the provisioner load
any certificates (`loaded`), is the descriptor fit for them (`check`),
and what does it look like with them (`apply`). `provision_of_empty` and
`provision_of_loaded` answer for a whole run; the theorems about runs
start from these two and never from the definition of `provision`.

The second half is about the cache. What a load gives and what it keeps
agree (`load_twice`), so that after a load which found something no
change to the file system is seen again (`loaded_afterLoad`).
-/

namespace WorkspaceTrust

namespace SortedMap

variable {κ α : Type} [KeyOrder κ]

@[simp] theorem isEmpty_empty : (empty : SortedMap κ α).isEmpty = true := rfl

end SortedMap

namespace CertificateCache

theorem load_of_found {fs : FileSystem} {c : CertificateCache} {certificates : Certificates}
    (h : c.found = some certificates) : c.load fs = (certificates, c) := by
  unfold load
  split
  · next kept hk =>
    obtain rfl : kept = certificates := Option.some.inj (hk.symm.trans h)
    rfl
  · next hk =>
    rw [h] at hk
    cases hk

/-- What is given by a cache that has found nothing so far. -/
theorem load_fst_of_none {fs : FileSystem} {c : CertificateCache} (h : c.found = none) :
    (c.load fs).1 = fs.readCertificates (c.store.files fs) := by
  unfold load
  split
  · next kept hk =>
    rw [h] at hk
    cases hk
  · simp only
    split <;> rfl

/-- A load that finds nothing leaves the cache as it was. -/
theorem load_snd_of_empty {fs : FileSystem} {c : CertificateCache}
    (h : (c.load fs).1.isEmpty = true) : (c.load fs).2 = c := by
  cases hf : c.found with
  | some certificates => rw [load_of_found hf]
  | none =>
    rw [load_fst_of_none hf] at h
    unfold load
    split
    · rfl
    · simp only
      rw [dif_pos h]

/-- A load that finds something keeps what it gives. -/
theorem found_load_of_nonempty {fs : FileSystem} {c : CertificateCache}
    (h : (c.load fs).1.isEmpty = false) : (c.load fs).2.found = some (c.load fs).1 := by
  cases hf : c.found with
  | some certificates => rw [load_of_found hf, hf]
  | none =>
    rw [load_fst_of_none hf] at h
    unfold load
    split
    · next kept hk =>
      rw [hf] at hk
      cases hk
    · simp only
      rw [dif_neg (by simp [h])]

@[simp] theorem store_load (fs : FileSystem) (c : CertificateCache) :
    (c.load fs).2.store = c.store := by
  unfold load
  split
  · rfl
  · simp only
    split <;> rfl

/-- After a load that found something the file system is not read again. -/
theorem load_twice {fs : FileSystem} {c : CertificateCache}
    (h : (c.load fs).1.isEmpty = false) (fs' : FileSystem) :
    (c.load fs).2.load fs' = ((c.load fs).1, (c.load fs).2) :=
  load_of_found (found_load_of_nonempty h)

end CertificateCache

namespace VcsCertificateProvisioner

variable {fs : FileSystem} {identity : RuntimeIdentity} {p : VcsCertificateProvisioner}
  {d : Descriptor}

/-- The certificates that a run loads: none if there is no trust store. -/
def loaded (fs : FileSystem) (p : VcsCertificateProvisioner) : Certificates :=
  if p.isConfigured then (p.cache.load fs).1 else .empty

/-- The provisioner after a load. -/
def afterLoad (fs : FileSystem) (p : VcsCertificateProvisioner) : VcsCertificateProvisioner :=
  ⟨(p.cache.load fs).2⟩

theorem isConfigured_of_loaded (h : (p.loaded fs).isEmpty = false) : p.isConfigured = true := by
  cases hc : p.isConfigured with
  | true => rfl
  | false => simp [loaded, hc] at h

theorem loaded_of_configured (h : p.isConfigured = true) : p.loaded fs = (p.cache.load fs).1 := by
  simp [loaded, h]

theorem load_fst_of_loaded (h : (p.loaded fs).isEmpty = false) :
    (p.cache.load fs).1 = p.loaded fs :=
  (loaded_of_configured (isConfigured_of_loaded h)).symm

/-- A run without certificates changes nothing, not even the cache. -/
theorem provision_of_empty (h : (p.loaded fs).isEmpty = true) :
    provision fs identity p d = ⟨.ok (), p, d⟩ := by
  unfold provision
  cases hc : p.isConfigured with
  | false => rfl
  | true =>
    rw [loaded_of_configured hc] at h
    simp [h, CertificateCache.load_snd_of_empty h]

/-- A run with certificates is its check and, if that succeeds, `apply`. -/
theorem provision_of_loaded (h : (p.loaded fs).isEmpty = false) :
    provision fs identity p d = match check identity d with
      | .error e => ⟨.error e, p.afterLoad fs, d⟩
      | .ok () => ⟨.ok (), p.afterLoad fs, apply identity (p.loaded fs) d⟩ := by
  have hc := isConfigured_of_loaded h
  have hl := load_fst_of_loaded h
  rw [← hl] at h ⊢
  simp only [provision, hc, h, afterLoad]
  cases check identity d <;> rfl

/-- A run fails exactly if it has certificates to mount and its check fails. -/
theorem provision_result_eq_error_iff {e : ProvisionError} :
    (provision fs identity p d).result = .error e ↔
      (p.loaded fs).isEmpty = false ∧ check identity d = .error e := by
  cases h : (p.loaded fs).isEmpty with
  | true => simp [provision_of_empty h]
  | false =>
    rw [provision_of_loaded h]
    cases check identity d <;> simp

theorem provision_of_error {e : ProvisionError} (h : (p.loaded fs).isEmpty = false)
    (he : check identity d = .error e) :
    provision fs identity p d = ⟨.error e, p.afterLoad fs, d⟩ := by
  rw [provision_of_loaded h, he]

theorem provision_of_ok (h : (p.loaded fs).isEmpty = false) (hc : check identity d = .ok ()) :
    provision fs identity p d = ⟨.ok (), p.afterLoad fs, apply identity (p.loaded fs) d⟩ := by
  rw [provision_of_loaded h, hc]

/-- A run that succeeds with certificates has passed its check. -/
theorem check_of_provision_ok (h : (p.loaded fs).isEmpty = false)
    (hok : (provision fs identity p d).result = .ok ()) : check identity d = .ok () := by
  rw [provision_of_loaded h] at hok
  cases hc : check identity d with
  | ok u => rfl
  | error e => simp [hc] at hok

/-- What a run does to the descriptor. Only a successful run with certificates changes it. -/
theorem provision_cases (fs : FileSystem) (identity : RuntimeIdentity)
    (p : VcsCertificateProvisioner) (d : Descriptor) :
    (provision fs identity p d).descriptor = d ∨
      ((p.loaded fs).isEmpty = false ∧ check identity d = .ok () ∧
        (provision fs identity p d).result = .ok () ∧
        (provision fs identity p d).descriptor = apply identity (p.loaded fs) d) := by
  cases hload : (p.loaded fs).isEmpty with
  | true =>
    rw [provision_of_empty hload]
    exact .inl rfl
  | false =>
    cases hcheck : check identity d with
    | error e =>
      rw [provision_of_error hload hcheck]
      exact .inl rfl
    | ok u =>
      rw [provision_of_ok hload hcheck]
      exact .inr ⟨rfl, rfl, rfl, rfl⟩

/-! ## Later runs -/

theorem isConfigured_afterLoad : (p.afterLoad fs).isConfigured = p.isConfigured := by
  simp [afterLoad, isConfigured, CertificateCache.isConfigured]

/-- What has been loaded once is loaded ever after, whatever the files are by then. -/
theorem loaded_afterLoad (h : (p.loaded fs).isEmpty = false) (fs' : FileSystem) :
    (p.afterLoad fs).loaded fs' = p.loaded fs := by
  have hc := isConfigured_of_loaded h
  have hl := load_fst_of_loaded h
  rw [loaded_of_configured (isConfigured_afterLoad.trans hc), afterLoad, ← hl]
  rw [← hl] at h
  rw [CertificateCache.load_twice h]

theorem afterLoad_afterLoad (h : (p.loaded fs).isEmpty = false) (fs' : FileSystem) :
    (p.afterLoad fs).afterLoad fs' = p.afterLoad fs := by
  have hl := load_fst_of_loaded h
  rw [← hl] at h
  simp only [afterLoad, CertificateCache.load_twice h]

/-! ## A small trust store and a small descriptor -/

/-- A directory with one certificate. -/
def oneCertificate : FileSystem where
  entries := .ofList [([utf8 "certs"], .directory),
    ([utf8 "certs", utf8 "localhost"], .file (utf8 "certificate"))]
  workingDirectory := []

/-- A provisioner for that directory that has not run yet. -/
def ofCerts : VcsCertificateProvisioner := .ofRoot (some (.ofString "certs"))

/-- A volume of a pod and how a container mounts it. -/
def ownVolume : Volume := ⟨"own", none, .ofFields (.ofList [("emptyDir", .obj [])])⟩
def ownMount : VolumeMount := ⟨"own", "/own", none, none, .none⟩

/-- A mount of certificates that is there before anything has run. -/
def earlierMount : VolumeMount := .readonly certificateVolume "/earlier"

/-- A pod with a container of each sort: an init container without mounts, one that mounts
only what is its own, and one that mounts certificates already. -/
def threeContainers : Pod := .new "dev" {
  initContainers := [.ofImage "fetch" "git"]
  containers := [
    { Container.ofImage "tooling" "tools" with volumeMounts := [ownMount] },
    { Container.ofImage "editor" "tools" with volumeMounts := [earlierMount] }]
  volumes := [ownVolume]
  extra := .none }

/-- That pod beside a config map. -/
def threeContainersDescriptor : Descriptor :=
  (Descriptor.empty.addPod threeContainers).addConfigMap (.new (.named "settings"))

end VcsCertificateProvisioner

end WorkspaceTrust
