import WorkspaceTrust.Proofs.Provision.Idempotence

/-!
# Pods that come later

A pod that is added between two runs ends up as if it had been there for
the first. Where no pod conflicts, the check of a descriptor with one
more pod is the check of that pod (`check_addPod`), and this is so before
a run, because the run succeeds, and after it, because all containers
have the mount by then. The second run writes over what the first has
written, but for the new pod, which it finds raw in either order
(`apply_addPod_apply`).

The provisioner must give the same certificates all the time, which it
does once its cache holds some: then no file is read
(`provision_of_found`). The new pod may take the place of another.
-/

namespace WorkspaceTrust

namespace SortedMap

variable {κ α β : Type} [KeyOrder κ]

theorem mapValues_insert [DecidableEq κ] (f : α → β) (m : SortedMap κ α) (k : κ) (a : α) :
    (m.insert k a).mapValues f = (m.mapValues f).insert k (f a) := by
  refine ext fun i => ?_
  simp only [get?_mapValues, get?_insert]
  split <;> rfl

/-- What is found among entries where only a new one counts is what is found in that one. -/
theorem findSome?_insertEntry {f : κ × α → Option β} {l : List (κ × α)}
    (h : ∀ e ∈ l, f e = none) (k : κ) (a : α) : (insertEntry k a l).findSome? f = f (k, a) := by
  cases hnew : f (k, a) with
  | none =>
    refine List.findSome?_eq_none_iff.2 fun e he => ?_
    rcases mem_insertEntry he with rfl | he
    · exact hnew
    · exact h e he
  | some b =>
    induction l with
    | nil => simp [insertEntry, hnew]
    | cons e l ih =>
      obtain ⟨j, c⟩ := e
      obtain ⟨he, hl⟩ := List.forall_mem_cons.1 h
      rw [insertEntry]
      split_ifs
      · simp [hnew]
      · rw [List.findSome?_cons, he, ih hl]
      · simp [hnew]

end SortedMap

/-- The first conflicting mount of a pod, by containers and mounts. -/
def Pod.mountConflict? (p : Pod) : Option ProvisionError :=
  p.spec.allContainers.findSome? fun c =>
    c.conflictingMount?.map fun m => .mountConflict p.metadata.name c.name m.name m.mountPath

theorem Pod.mountConflict?_eq_some {p : Pod} {e : ProvisionError} (h : p.mountConflict? = some e) :
    ∃ c ∈ p.spec.initContainers ++ p.spec.containers, ∃ m ∈ c.volumeMounts,
      DenotesCertificates m.mountPath ∧
        e = .mountConflict p.metadata.name c.name m.name m.mountPath := by
  obtain ⟨c, hc, h⟩ := List.exists_of_findSome?_eq_some h
  obtain ⟨m, hm, rfl⟩ := Option.map_eq_some_iff.1 h
  obtain ⟨-, hdenotes, before, after, hmounts, -⟩ := Container.conflictingMount?_eq_some hm
  exact ⟨c, hc, m, by simp [hmounts], hdenotes, rfl⟩

/-- If nothing conflicts so far, only the new pod can. -/
theorem Descriptor.mountConflict?_addPod {d : Descriptor} (h : ¬ d.Conflicts) (p : Pod) :
    (d.addPod p).mountConflict? = p.mountConflict? := by
  have hnone := List.findSome?_eq_none_iff.1 (mountConflict?_eq_none_iff.2 h)
  exact SortedMap.findSome?_insertEntry hnone p.metadata.name p

namespace VcsCertificateProvisioner

variable {fs : FileSystem} {identity : RuntimeIdentity} {p : VcsCertificateProvisioner}
  {d : Descriptor} {certificates : Certificates}

/-! ## A cache with certificates -/

/-- With certificates in the cache the files do not matter. -/
theorem provision_of_found (h : p.cache.found = some certificates) (fs fs' : FileSystem)
    (identity : RuntimeIdentity) (d : Descriptor) :
    provision fs identity p d = provision fs' identity p d := by
  simp only [provision, CertificateCache.load_of_found h]

theorem provisioner_of_found (h : p.cache.found = some certificates) :
    (provision fs identity p d).provisioner = p := by
  cases hload : (p.loaded fs).isEmpty with
  | true => rw [provision_of_empty hload]
  | false =>
    have hafter : p.afterLoad fs = p := by
      rw [afterLoad, CertificateCache.load_of_found h]
    rw [provision_of_loaded hload]
    cases check identity d <;> exact hafter

/-! ## One more pod -/

/-- The check of a descriptor that passed it is, with one more pod, the check of the pod. -/
theorem check_addPod (h : check identity d = .ok ()) (pod : Pod) :
    check identity (d.addPod pod) = match pod.mountConflict? with
      | some e => .error e
      | none => .ok () := by
  obtain ⟨hname, hno⟩ := check_eq_ok_iff.1 h
  have hconflict := Descriptor.mountConflict?_addPod hno pod
  cases hpod : pod.mountConflict? <;> simp only [check_of_validName hname, hconflict, hpod]

/-- What was mounted before a pod came does not show once the pod has the certificates. -/
theorem apply_addPod_apply (identity : RuntimeIdentity) (certificates certificates' : Certificates)
    (d : Descriptor) (pod : Pod) :
    apply identity certificates' ((apply identity certificates d).addPod pod) =
      apply identity certificates' (d.addPod pod) := by
  simp [apply, Descriptor.mapPods, Descriptor.addPod, Descriptor.addConfigMap,
    SortedMap.mapValues_insert, SortedMap.mapValues_mapValues, Pod.mountCertificates_idem,
    SortedMap.insert_insert]

/-- Two runs with a pod added in between do what one run does with the pod there from the
start: they end in the same descriptor, or fail over the same mount of that pod. -/
theorem provision_addPod (hfound : p.cache.found = some certificates)
    (hok : (provision fs identity p d).result = .ok ()) (fs' fs'' : FileSystem) (pod : Pod) :
    let first := provision fs identity p d
    let late := provision fs' identity first.provisioner (first.descriptor.addPod pod)
    let early := provision fs'' identity p (d.addPod pod)
    (late.result = .ok () ∧ early.result = .ok () ∧ late.descriptor = early.descriptor) ∨
      ∃ c ∈ pod.spec.initContainers ++ pod.spec.containers, ∃ m ∈ c.volumeMounts,
        DenotesCertificates m.mountPath ∧
        late.result = .error (.mountConflict pod.metadata.name c.name m.name m.mountPath) ∧
        early.result = .error (.mountConflict pod.metadata.name c.name m.name m.mountPath) := by
  intro first late early
  -- all three runs may as well see the files of the first
  have hlate : late = provision fs identity p (first.descriptor.addPod pod) := by
    rw [show late = provision fs' identity first.provisioner _ from rfl,
      provisioner_of_found hfound, provision_of_found hfound fs' fs]
  have hearly : early = provision fs identity p (d.addPod pod) :=
    provision_of_found hfound fs'' fs identity (d.addPod pod)
  rw [hlate, hearly]
  cases hload : (p.loaded fs).isEmpty with
  | true =>
    have hfirst : first.descriptor = d := congrArg Outcome.descriptor (provision_of_empty hload)
    rw [hfirst, provision_of_empty hload]
    exact .inl ⟨rfl, rfl, rfl⟩
  | false =>
    have hcheck := check_of_provision_ok hload hok
    have hfirst : first.descriptor = apply identity (p.loaded fs) d :=
      congrArg Outcome.descriptor (provision_of_ok hload hcheck)
    have hbefore := check_addPod hcheck pod
    have hafter := check_addPod (check_apply (p.loaded fs) hcheck) pod
    rw [hfirst]
    cases hconflict : pod.mountConflict? with
    | none =>
      rw [hconflict] at hbefore hafter
      rw [provision_of_ok hload hafter, provision_of_ok hload hbefore, apply_addPod_apply]
      exact .inl ⟨rfl, rfl, rfl⟩
    | some e =>
      rw [hconflict] at hbefore hafter
      rw [provision_of_error hload hafter, provision_of_error hload hbefore]
      obtain ⟨c, hc, m, hm, hdenotes, rfl⟩ := Pod.mountConflict?_eq_some hconflict
      exact .inr ⟨c, hc, m, hm, hdenotes, rfl, rfl⟩

/-- A raw pod comes in place of a provisioned one, when the certificate files are gone. -/
theorem provision_addPod_replacing :
    let p := ofCerts.afterLoad oneCertificate
    let d := Descriptor.empty.addPod (Pod.new "dev" default)
    let first := provision default ⟨"ws", none⟩ p d
    let pod := Pod.new "dev" { (default : PodSpec) with containers := [.ofImage "app" "image"] }
    let late := provision default ⟨"ws", none⟩ first.provisioner (first.descriptor.addPod pod)
    first.result = .ok () ∧ first.descriptor.pods.contains pod.metadata.name = true ∧
      late.result = .ok () ∧
      late.descriptor = (provision default ⟨"ws", none⟩ p (d.addPod pod)).descriptor := by
  intro p d first pod late
  have hfound : p.cache.found = some (ofCerts.cache.load oneCertificate).1 :=
    CertificateCache.found_load_of_nonempty (by decide +kernel)
  have hok : first.result = .ok () := by decide +kernel
  refine ⟨hok, by decide +kernel, ?_⟩
  rcases provision_addPod hfound hok default default pod with ⟨hlate, -, hsame⟩ | hconflict
  · exact ⟨hlate, hsame⟩
  · obtain ⟨c, hc, m, hm, -⟩ := hconflict
    obtain rfl : c = .ofImage "app" "image" := List.mem_singleton.1 hc
    exact absurd hm List.not_mem_nil

end VcsCertificateProvisioner

end WorkspaceTrust
