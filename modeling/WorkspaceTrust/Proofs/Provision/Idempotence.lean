import WorkspaceTrust.Proofs.Provision.Conflict

/-!
# Running again

What a successful run leaves is a fixed point. Its containers all mount
the certificates, so no container conflicts, though the mount now stands
at the very path that is checked (`not_conflicts_apply`); volume and
mounts are found by name and not added again, and the config map is
written over (`apply_apply`). The cache gives the same certificates
whatever has become of the files (`loaded_afterLoad`). Hence the whole
outcome repeats itself: `provision_again`.

`runs` lists the outcomes of later runs, each with the file system of its
time. A fresh provisioner for the same trust store reads the files again
and agrees where the cache is `UpToDate`.
-/

namespace WorkspaceTrust

namespace SortedMap

variable {κ α β γ : Type} [KeyOrder κ]

theorem mapValues_mapValues (f : α → β) (g : β → γ) (m : SortedMap κ α) :
    (m.mapValues f).mapValues g = m.mapValues fun a => g (f a) := by
  simp [mapValues, Function.comp_def]

/-- Of two values stored under a key only the second is left. -/
theorem insert_insert [DecidableEq κ] (m : SortedMap κ α) (k : κ) (a b : α) :
    (m.insert k a).insert k b = m.insert k b := by
  refine ext fun i => ?_
  simp only [get?_insert]
  split <;> rfl

end SortedMap

/-! ## The mounts -/

theorem Container.mountCertificates_idem (c : Container) :
    c.mountCertificates.mountCertificates = c.mountCertificates :=
  mountCertificates_of_mounts c.mounts_mountCertificates

theorem Pod.hasCertificates_mountCertificates (configMap : String) (p : Pod) :
    (p.mountCertificates configMap).spec.HasCertificates := by
  by_cases h : p.spec.HasCertificates
  · rwa [PodSpec.HasCertificates, volumes_mountCertificates_of_has h]
  · rw [PodSpec.HasCertificates, volumes_mountCertificates_of_not_has h]
    exact ⟨.ofConfigMap certificateVolume configMap, by simp, rfl⟩

theorem Pod.mountCertificates_idem (configMap : String) (p : Pod) :
    (p.mountCertificates configMap).mountCertificates configMap =
      p.mountCertificates configMap := by
  have hvolumes := volumes_mountCertificates_of_has
    (p.hasCertificates_mountCertificates configMap) configMap
  have hcontainers : ∀ cs : List Container,
      (cs.map Container.mountCertificates).map Container.mountCertificates =
        cs.map Container.mountCertificates := fun cs => by
    simp [Container.mountCertificates_idem]
  simp only [mountCertificates, PodSpec.mapContainers] at hvolumes ⊢
  rw [hvolumes, hcontainers, hcontainers]

namespace VcsCertificateProvisioner

variable {fs : FileSystem} {identity : RuntimeIdentity} {p : VcsCertificateProvisioner}
  {d : Descriptor}

/-! ## The descriptor -/

/-- What is mounted later is written over what was mounted before. -/
theorem apply_apply (identity : RuntimeIdentity) (certificates certificates' : Certificates)
    (d : Descriptor) :
    apply identity certificates' (apply identity certificates d) =
      apply identity certificates' d := by
  simp [apply, Descriptor.mapPods, Descriptor.addConfigMap, SortedMap.mapValues_mapValues,
    Pod.mountCertificates_idem, SortedMap.insert_insert]

/-- Every container has the mount, so that none would get it. -/
theorem not_conflicts_apply (identity : RuntimeIdentity) (certificates : Certificates)
    (d : Descriptor) : ¬ (apply identity certificates d).Conflicts := by
  rintro ⟨name, pod, hpod, c, hc, hnot, -⟩
  have hget := SortedMap.get?_eq_some_iff.2 hpod
  rw [get?_pods_apply] at hget
  obtain ⟨before, -, rfl⟩ := Option.map_eq_some_iff.1 hget
  have hc' : c ∈ (before.spec.mapContainers Container.mountCertificates).allContainers := hc
  rw [PodSpec.allContainers_mapContainers] at hc'
  obtain ⟨c₀, -, rfl⟩ := List.mem_map.1 hc'
  exact hnot c₀.mounts_mountCertificates

theorem check_apply (certificates : Certificates) (h : check identity d = .ok ()) :
    check identity (apply identity certificates d) = .ok () :=
  check_eq_ok_iff.2 ⟨(check_eq_ok_iff.1 h).1, not_conflicts_apply identity certificates d⟩

/-! ## Later runs -/

/-- A successful run has the outcome again, on every file system. -/
theorem provision_again (hload : (p.loaded fs).isEmpty = false)
    (hok : (provision fs identity p d).result = .ok ()) (fs' : FileSystem) :
    provision fs' identity (provision fs identity p d).provisioner
      (provision fs identity p d).descriptor = provision fs identity p d := by
  have hcheck := check_of_provision_ok hload hok
  have hload' : ((p.afterLoad fs).loaded fs').isEmpty = false := by
    rw [loaded_afterLoad hload, hload]
  rw [provision_of_ok hload hcheck]
  simp only
  rw [provision_of_ok hload' (check_apply _ hcheck), loaded_afterLoad hload,
    afterLoad_afterLoad hload, apply_apply]

/-- The outcomes of runs one after the other, each on the file system of its time. -/
def runs (identity : RuntimeIdentity) : List FileSystem → VcsCertificateProvisioner →
    Descriptor → List (Outcome VcsCertificateProvisioner)
  | [], _, _ => []
  | fs :: later, p, d =>
      let outcome := provision fs identity p d
      outcome :: runs identity later outcome.provisioner outcome.descriptor

theorem runs_of_ok (hload : (p.loaded fs).isEmpty = false)
    (hok : (provision fs identity p d).result = .ok ()) (later : List FileSystem) :
    ∀ outcome ∈ runs identity later (provision fs identity p d).provisioner
      (provision fs identity p d).descriptor, outcome = provision fs identity p d := by
  induction later with
  | nil => simp [runs]
  | cons fs' later ih =>
    intro outcome houtcome
    rw [runs, provision_again hload hok] at houtcome
    rcases List.mem_cons.1 houtcome with rfl | hlater
    · rfl
    · exact ih outcome hlater

theorem runs_of_empty {later : List FileSystem}
    (hempty : ∀ fs ∈ later, (p.loaded fs).isEmpty = true) :
    ∀ outcome ∈ runs identity later p d, outcome = ⟨.ok (), p, d⟩ := by
  induction later with
  | nil => simp [runs]
  | cons fs later ih =>
    intro outcome houtcome
    rw [runs, provision_of_empty (hempty fs (by simp))] at houtcome
    rcases List.mem_cons.1 houtcome with rfl | hlater
    · rfl
    · exact ih (fun fs' h => hempty fs' (by simp [h])) outcome hlater

end VcsCertificateProvisioner

/-! ## A fresh provisioner -/

/-- What the cache holds, if anything, is what its trust store holds in this file system. -/
def CertificateCache.UpToDate (fs : FileSystem) (c : CertificateCache) : Prop :=
  ∀ certificates, c.found = some certificates →
    certificates = fs.readCertificates (c.store.files fs)

namespace CertificateCache

theorem upToDate_ofStore (fs : FileSystem) (store : TrustStore) :
    (ofStore store).UpToDate fs := nofun

/-- Loading in an unchanged file system keeps the cache up to date. -/
theorem UpToDate.load {fs : FileSystem} {c : CertificateCache} (h : c.UpToDate fs) :
    (c.load fs).2.UpToDate fs := by
  cases hf : c.found with
  | some certificates => rwa [load_of_found hf]
  | none =>
    cases hempty : (c.load fs).1.isEmpty with
    | true => rwa [load_snd_of_empty hempty]
    | false =>
      intro certificates hfound
      rw [found_load_of_nonempty hempty, load_fst_of_none hf] at hfound
      rw [store_load]
      exact (Option.some.inj hfound).symm

/-- A cache that is up to date gives what a fresh one would read. -/
theorem UpToDate.load_fst {fs : FileSystem} {c : CertificateCache} (h : c.UpToDate fs) :
    (c.load fs).1 = fs.readCertificates (c.store.files fs) := by
  cases hf : c.found with
  | some certificates => rw [load_of_found hf, ← h certificates hf]
  | none => exact load_fst_of_none hf

end CertificateCache

namespace VcsCertificateProvisioner

variable {fs : FileSystem} {identity : RuntimeIdentity} {p : VcsCertificateProvisioner}
  {d : Descriptor}

theorem loaded_ofRoot {root : Option Path} (hstore : p.cache.store = .ofRoot root)
    (h : p.cache.UpToDate fs) : (ofRoot root).loaded fs = p.loaded fs := by
  have hconfigured : (ofRoot root).isConfigured = p.isConfigured := by
    simp [isConfigured, CertificateCache.isConfigured, ofRoot, CertificateCache.ofStore, hstore]
  unfold loaded
  rw [hconfigured, h.load_fst, hstore]
  have hfresh : ((ofRoot root).cache.load fs).1 =
      fs.readCertificates ((TrustStore.ofRoot root).files fs) :=
    CertificateCache.load_fst_of_none rfl
  rw [hfresh]

/-- What a run leaves is left as it is by all later runs. With certificates these are
the runs of the same provisioner, whatever happens to the files, and of a fresh one
as long as nothing has happened to them; without, those that find none again. -/
theorem provision_idempotent (fs : FileSystem) (identity : RuntimeIdentity)
    (p : VcsCertificateProvisioner) (d : Descriptor) :
    let first := provision fs identity p d
    (first.result = .ok () → (p.loaded fs).isEmpty = false →
      (∀ later, ∀ outcome ∈ runs identity later first.provisioner first.descriptor,
        outcome.result = .ok () ∧ outcome.descriptor = first.descriptor)
      ∧ ∀ root, p.cache.store = .ofRoot root → p.cache.UpToDate fs →
        (provision fs identity (ofRoot root) first.descriptor).result = .ok () ∧
        (provision fs identity (ofRoot root) first.descriptor).descriptor = first.descriptor)
    ∧ ((p.loaded fs).isEmpty = true →
      first.result = .ok () ∧ first.descriptor = d ∧
      ∀ later, (∀ fs' ∈ later, (first.provisioner.loaded fs').isEmpty = true) →
        ∀ outcome ∈ runs identity later first.provisioner first.descriptor,
          outcome.result = .ok () ∧ outcome.descriptor = d) := by
  intro first
  refine ⟨fun hok hload => ⟨fun later outcome houtcome => ?_, fun root hstore hcurrent => ?_⟩,
    fun hempty => ?_⟩
  · rw [runs_of_ok hload hok later outcome houtcome]
    exact ⟨hok, rfl⟩
  · have hcheck := check_of_provision_ok hload hok
    have hfresh := loaded_ofRoot hstore hcurrent
    have hfirst : first.descriptor = apply identity (p.loaded fs) d := by
      rw [show first = provision fs identity p d from rfl, provision_of_ok hload hcheck]
    rw [hfirst, provision_of_ok (hfresh ▸ hload) (check_apply _ hcheck), hfresh, apply_apply]
    exact ⟨rfl, rfl⟩
  · have hfirst : first = ⟨.ok (), p, d⟩ := provision_of_empty hempty
    rw [hfirst]
    refine ⟨rfl, rfl, fun later hlater outcome houtcome => ?_⟩
    rw [runs_of_empty hlater outcome houtcome]
    exact ⟨rfl, rfl⟩

/-- The first run changes the descriptor. No run after it does: not one of the same
provisioner when the files are gone, and not one of a fresh provisioner. -/
theorem provision_idempotent_one_certificate :
    let first := provision oneCertificate ⟨"ws", none⟩ ofCerts threeContainersDescriptor
    first.descriptor ≠ threeContainersDescriptor ∧
      (provision default ⟨"ws", none⟩ first.provisioner first.descriptor).descriptor =
        first.descriptor ∧
      (provision oneCertificate ⟨"ws", none⟩ ofCerts first.descriptor).descriptor =
        first.descriptor := by
  intro first
  obtain ⟨hlater, hfresh⟩ := (provision_idempotent oneCertificate ⟨"ws", none⟩ ofCerts
    threeContainersDescriptor).1 (by decide +kernel) (by decide +kernel)
  exact ⟨by decide +kernel, (hlater [default] _ (List.mem_cons_self ..)).2,
    (hfresh _ rfl (CertificateCache.upToDate_ofStore _ _)).2⟩

end VcsCertificateProvisioner

end WorkspaceTrust
