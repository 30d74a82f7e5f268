import Mathlib.Data.List.Nodup
import WorkspaceTrust.Proofs.Provision.History

/-!
# Pods stay well formed

In a well-formed pod no two volumes have a name in common, no two mounts
of a container are at one path, and every mount is of a volume of the
pod. A run of the certificate provisioner keeps all of this, for three
different reasons. A container that gets a mount has nothing at its path,
because then the check would have failed. The volume and the mount are
each added only where there is none of the name. And no mount dangles,
because the pod has the volume by the time its containers mount it
(`Pod.WellFormed.mountCertificates`).
-/

namespace WorkspaceTrust

/-- The mounts of a container of a pod with these volumes are at different paths, at most
one is of the certificates, and all are of volumes that there are. -/
structure Container.WellFormed (volumes : List String) (c : Container) : Prop where
  paths : (c.volumeMounts.map fun m => trimSlashes m.mountPath).Nodup
  once : (c.volumeMounts.filter fun m => m.name = certificateVolume).length ≤ 1
  known : ∀ m ∈ c.volumeMounts, m.name ∈ volumes

structure Pod.WellFormed (p : Pod) : Prop where
  volumes : (p.spec.volumes.map Volume.name).Nodup
  containers : ∀ c ∈ p.spec.initContainers ++ p.spec.containers,
    c.WellFormed (p.spec.volumes.map Volume.name)

theorem Container.wellFormed_iff {volumes : List String} {c : Container} :
    c.WellFormed volumes ↔ (c.volumeMounts.map fun m => trimSlashes m.mountPath).Nodup ∧
      (c.volumeMounts.filter fun m => m.name = certificateVolume).length ≤ 1 ∧
      ∀ m ∈ c.volumeMounts, m.name ∈ volumes :=
  ⟨fun h => ⟨h.paths, h.once, h.known⟩, fun h => ⟨h.1, h.2.1, h.2.2⟩⟩

instance (volumes : List String) (c : Container) : Decidable (c.WellFormed volumes) :=
  decidable_of_iff' _ Container.wellFormed_iff

instance (p : Pod) : Decidable p.WellFormed :=
  decidable_of_iff
    ((p.spec.volumes.map Volume.name).Nodup ∧ ∀ c ∈ p.spec.initContainers ++ p.spec.containers,
      c.WellFormed (p.spec.volumes.map Volume.name))
    ⟨fun h => ⟨h.1, h.2⟩, fun h => ⟨h.volumes, h.containers⟩⟩

/-! ## One pod -/

namespace Container

variable {c : Container} {volumes volumes' : List String}

theorem WellFormed.mono (h : c.WellFormed volumes) (hsub : volumes ⊆ volumes') :
    c.WellFormed volumes' :=
  ⟨h.paths, h.once, fun m hm => hsub (h.known m hm)⟩

/-- A mount is added where none of its name and nothing at its path is. -/
theorem WellFormed.mountCertificates (h : c.WellFormed volumes) (hno : ¬ c.Conflicts)
    (hvolume : certificateVolume ∈ volumes) : c.mountCertificates.WellFormed volumes := by
  by_cases hmounts : c.MountsCertificates
  · rwa [mountCertificates_of_mounts hmounts]
  have hfree : ∀ m ∈ c.volumeMounts, trimSlashes m.mountPath ≠ trimSlashes certificateDirectory :=
    fun m hm heq => hno ⟨hmounts, m, hm, (trimSlashes_eq_directory_iff _).1 heq⟩
  have hnone : c.volumeMounts.filter (fun m => m.name = certificateVolume) = [] :=
    List.filter_eq_nil_iff.2 fun m hm hname => hmounts ⟨m, hm, of_decide_eq_true hname⟩
  rw [mountCertificates_of_not_mounts hmounts]
  refine ⟨?_, ?_, ?_⟩
  · rw [List.map_append, List.nodup_append]
    refine ⟨h.paths, List.nodup_singleton _, fun path hpath path' hpath' => ?_⟩
    obtain ⟨m, hm, rfl⟩ := List.mem_map.1 hpath
    obtain rfl := List.mem_singleton.1 hpath'
    exact hfree m hm
  · rw [List.filter_append, hnone]
    exact List.length_filter_le _ _
  · intro m hm
    rcases List.mem_append.1 hm with hm | hm
    · exact h.known m hm
    · obtain rfl := List.mem_singleton.1 hm
      exact hvolume

end Container

namespace Pod

variable {p : Pod}

/-- The names of the volumes that a pod has with the certificates mounted. -/
theorem WellFormed.volumes_mountCertificates (h : p.WellFormed) (configMap : String) :
    let names := (p.mountCertificates configMap).spec.volumes.map Volume.name
    names.Nodup ∧ certificateVolume ∈ names ∧ p.spec.volumes.map Volume.name ⊆ names := by
  intro names
  by_cases hhas : p.spec.HasCertificates
  · have hnames : names = p.spec.volumes.map Volume.name := by
      rw [← volumes_mountCertificates_of_has hhas configMap]
    obtain ⟨v, hv, hname⟩ := hhas
    rw [hnames]
    exact ⟨h.volumes, List.mem_map.2 ⟨v, hv, hname⟩, List.Subset.refl _⟩
  · have hnames : names = p.spec.volumes.map Volume.name ++ [certificateVolume] := by
      show List.map _ (p.mountCertificates configMap).spec.volumes = _
      rw [volumes_mountCertificates_of_not_has hhas, List.map_append]
      rfl
    rw [hnames]
    refine ⟨List.nodup_append.2 ⟨h.volumes, List.nodup_singleton _, ?_⟩, by simp,
      List.subset_append_left _ _⟩
    intro name hname name' hname'
    obtain ⟨v, hv, rfl⟩ := List.mem_map.1 hname
    obtain rfl := List.mem_singleton.1 hname'
    exact fun heq => hhas ⟨v, hv, heq⟩

theorem WellFormed.mountCertificates (h : p.WellFormed) (configMap : String)
    (hno : ∀ c ∈ p.spec.initContainers ++ p.spec.containers, ¬ c.Conflicts) :
    (p.mountCertificates configMap).WellFormed := by
  obtain ⟨hnodup, hvolume, hsub⟩ := h.volumes_mountCertificates configMap
  refine ⟨hnodup, fun c hc => ?_⟩
  have hc' : c ∈ (p.spec.initContainers ++ p.spec.containers).map Container.mountCertificates := by
    rw [List.map_append]
    exact hc
  obtain ⟨before, hbefore, rfl⟩ := List.mem_map.1 hc'
  exact ((h.containers before hbefore).mono hsub).mountCertificates (hno before hbefore) hvolume

end Pod

/-! ## Descriptors -/

/-- All pods are well formed. -/
def Descriptor.WellFormed (d : Descriptor) : Prop := ∀ e ∈ d.pods.entries, e.2.WellFormed

/-- If the step adds a pod, this is well formed. -/
def Step.WellFormed : Step → Prop
  | .addPod p => p.WellFormed
  | .provision _ _ _ | .addConfigMap _ => True

namespace Descriptor

variable {d : Descriptor}

theorem WellFormed.addPod (h : d.WellFormed) {p : Pod} (hp : p.WellFormed) :
    (d.addPod p).WellFormed := by
  intro e he
  rcases SortedMap.mem_insertEntry he with rfl | he
  · exact hp
  · exact h e he

theorem WellFormed.apply (h : d.WellFormed) {identity : RuntimeIdentity}
    (hcheck : VcsCertificateProvisioner.check identity d = .ok ()) (certificates : Certificates) :
    (VcsCertificateProvisioner.apply identity certificates d).WellFormed := by
  obtain ⟨-, hno⟩ := VcsCertificateProvisioner.check_eq_ok_iff.1 hcheck
  intro e he
  obtain ⟨⟨name, pod⟩, hpod, rfl⟩ := List.mem_map.1 he
  exact (h _ hpod).mountCertificates _ fun c hc hconflict => hno ⟨name, pod, hpod, c, hc, hconflict⟩

/-- One step keeps the pods well formed, whether it succeeds or not. -/
theorem WellFormed.step {s : Step} (hs : s.WellFormed) (h : d.WellFormed) :
    (d.step s).WellFormed := by
  cases s with
  | provision fs identity p =>
    rcases VcsCertificateProvisioner.provision_cases fs identity p d with hsame | hrun
    · rw [Descriptor.step, hsame]
      exact h
    · obtain ⟨-, hcheck, -, hdescriptor⟩ := hrun
      rw [Descriptor.step, hdescriptor]
      exact h.apply hcheck _
  | addPod p => exact h.addPod hs
  | addConfigMap c => exact h

/-- In every history that starts with well-formed pods and adds only such, all pods that
there ever are are well formed. -/
theorem wellFormed_of_reached (h : d.WellFormed) {steps : List Step}
    (hsteps : ∀ s ∈ steps, s.WellFormed) :
    ∀ d' ∈ d.reached steps, ∀ e ∈ d'.pods.entries, e.2.WellFormed :=
  forall_reached (P := WellFormed) (fun _ _ hs hd => hd.step hs) hsteps h

/-- A run, another pod whose container mounts a volume of its own, and a run for another
workspace on a file system with nothing in it. -/
theorem wellFormed_of_reached_two_runs :
    let data := Volume.ofConfigMap "data" "settings"
    let container : Container := { Container.ofImage "app" "image" with
      volumeMounts := [.readonly "data" "/data/", .readonly "data" "/etc"] }
    let pod := Pod.new "app" { (default : PodSpec) with containers := [container], volumes := [data] }
    let steps := [
      .provision VcsCertificateProvisioner.oneCertificate ⟨"ws", none⟩ .ofCerts,
      .addPod pod,
      .provision VcsCertificateProvisioner.oneCertificate ⟨"other", none⟩ .ofCerts,
      .provision default ⟨"other", none⟩ .ofCerts]
    let last := empty.after steps
    (∃ p ∈ last.pods.values, p.spec.HasCertificates) ∧ ∀ e ∈ last.pods.entries, e.2.WellFormed := by
  intro data container pod steps last
  have hsteps : ∀ s ∈ steps, s.WellFormed := by
    intro s hs
    simp only [steps, List.mem_cons, List.not_mem_nil, or_false] at hs
    rcases hs with rfl | rfl | rfl | rfl
    · exact True.intro
    · show pod.WellFormed
      decide +kernel
    · exact True.intro
    · exact True.intro
  have hempty : empty.WellFormed := fun e he => absurd he List.not_mem_nil
  exact ⟨by decide +kernel, wellFormed_of_reached hempty hsteps last (after_mem_reached steps _)⟩

end Descriptor

end WorkspaceTrust
