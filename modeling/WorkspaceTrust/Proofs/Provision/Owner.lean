import Mathlib.Data.List.DropRight
import WorkspaceTrust.Proofs.Provision.History

/-!
# The first run owns the volume

Many runs for different workspaces can mount certificates in one pod, but
the volume that the first of them adds stays: later runs find it by name
and publish their own config maps beside it. `runsSince` reads off a
history which runs these are, counted from the moment when the pod was
added last, so that a pod which is replaced starts anew.

The descriptor agrees with its history in this: the certificate volumes
of a pod are one volume of its owner's config map, if it has an owner,
and that config map is there (`Owned`). Each step keeps this
(`Owned.step`), where a run without certificates and a run that fails
are no part of the history. Hence no certificate volume ever dangles
(`volume_of_first_run`).
-/

namespace WorkspaceTrust

theorem SortedMap.contains_insert {κ α : Type} [KeyOrder κ] [DecidableEq κ] {m : SortedMap κ α}
    {k j : κ} {a : α} : (m.insert k a).contains j = true ↔ k = j ∨ m.contains j = true := by
  rw [contains, get?_insert]
  split <;> simp_all [contains]

/-! ## Histories -/

namespace Step

/-- The step adds a pod of that name. -/
def adds (name : String) : Step → Bool
  | .addPod p => p.metadata.name = name
  | .provision _ _ _ | .addConfigMap _ => false

/-- The workspace for which the step mounts certificates: it is a run that loads some and
succeeds. -/
def mounted? (d : Descriptor) : Step → Option String
  | .provision fs identity p =>
      match (p.provision fs identity d).result with
      | .error _ => none
      | .ok () => if (p.loaded fs).isEmpty then none else some identity.workspaceId
  | .addPod _ | .addConfigMap _ => none

/-- If the step adds a pod, this has no certificate volume. -/
def AddsRaw : Step → Prop
  | .addPod p => ¬ p.spec.HasCertificates
  | .provision _ _ _ | .addConfigMap _ => True

end Step

namespace Descriptor

/-- The steps, each with the descriptor on which it is taken. -/
def history : List Step → Descriptor → List (Descriptor × Step)
  | [], _ => []
  | s :: steps, d => (d, s) :: (d.step s).history steps

/-- The workspaces for which certificates have been mounted, in order, since a pod of that
name was added last. -/
def runsSince (name : String) (steps : List Step) (d : Descriptor) : List String :=
  ((d.history steps).rtakeWhile fun e => !e.2.adds name).filterMap fun e => e.2.mounted? e.1

variable {d : Descriptor}

theorem after_concat (steps : List Step) (s : Step) : ∀ d : Descriptor,
    d.after (steps ++ [s]) = (d.after steps).step s := by
  induction steps with
  | nil => exact fun _ => rfl
  | cons t steps ih => exact fun d => ih (d.step t)

theorem history_concat (steps : List Step) (s : Step) : ∀ d : Descriptor,
    d.history (steps ++ [s]) = d.history steps ++ [(d.after steps, s)] := by
  induction steps with
  | nil => exact fun _ => rfl
  | cons t steps ih => exact fun d => congrArg _ (ih (d.step t))

/-- One more step starts the history of a pod anew, or adds itself to it if it mounts
certificates. -/
theorem runsSince_concat (name : String) (steps : List Step) (s : Step) (d : Descriptor) :
    d.runsSince name (steps ++ [s]) =
      if s.adds name then [] else d.runsSince name steps ++ (s.mounted? (d.after steps)).toList := by
  rw [runsSince, history_concat]
  cases hs : s.adds name with
  | true =>
    rw [List.rtakeWhile_concat_neg _ _ _ (by simp [hs])]
    rfl
  | false =>
    rw [List.rtakeWhile_concat_pos _ _ _ (by simp [hs]), List.filterMap_append]
    cases hm : s.mounted? (d.after steps) <;> simp [runsSince, hm]

end Descriptor

/-! ## Volumes -/

/-- The volumes that have the name of the certificate volume. -/
def PodSpec.certificateVolumes (s : PodSpec) : List Volume :=
  s.volumes.filter fun v => v.name = certificateVolume

theorem PodSpec.certificateVolumes_eq_nil_iff {s : PodSpec} :
    s.certificateVolumes = [] ↔ ¬ s.HasCertificates := by
  simp [certificateVolumes, HasCertificates]

/-- The certificates are mounted from the config map, unless there is a volume already. -/
theorem Pod.certificateVolumes_mountCertificates (configMap : String) (p : Pod) :
    (p.mountCertificates configMap).spec.certificateVolumes =
      if p.spec.certificateVolumes = [] then [.ofConfigMap certificateVolume configMap]
      else p.spec.certificateVolumes := by
  split
  · next hnone =>
    have hnot := PodSpec.certificateVolumes_eq_nil_iff.1 hnone
    rw [PodSpec.certificateVolumes] at hnone ⊢
    rw [volumes_mountCertificates_of_not_has hnot, List.filter_append, hnone]
    rfl
  · next hsome =>
    have hhas := not_not.1 (mt PodSpec.certificateVolumes_eq_nil_iff.2 hsome)
    rw [PodSpec.certificateVolumes, volumes_mountCertificates_of_has hhas]
    rfl

/-! ## Descriptors -/

namespace Descriptor

variable {d : Descriptor} {owner? : String → Option String}

/-- The certificate volume of each pod is that of its owner, whose config map is there; a pod
without an owner has none. -/
structure Owned (owner? : String → Option String) (d : Descriptor) : Prop where
  volumes : ∀ name pod, d.pods.get? name = some pod → pod.spec.certificateVolumes =
    ((owner? name).map fun w => .ofConfigMap certificateVolume (certificateMapName w)).toList
  configMaps : ∀ name w, d.pods.contains name = true → owner? name = some w →
    d.configMaps.contains (certificateMapName w) = true

theorem Owned.addPod (h : d.Owned owner?) {p : Pod} (hraw : ¬ p.spec.HasCertificates) :
    (d.addPod p).Owned fun name => if p.metadata.name = name then none else owner? name := by
  constructor
  · intro name pod hpod
    rw [pods_addPod, SortedMap.get?_insert] at hpod
    split at hpod
    · next hname =>
      obtain rfl := Option.some.inj hpod
      rw [if_pos hname]
      exact PodSpec.certificateVolumes_eq_nil_iff.2 hraw
    · next hname =>
      rw [if_neg hname]
      exact h.volumes name pod hpod
  · intro name w hname hw
    split at hw
    · cases hw
    · next hne =>
      rw [pods_addPod, SortedMap.contains_insert] at hname
      exact h.configMaps name w (hname.resolve_left hne) hw

theorem Owned.addConfigMap (h : d.Owned owner?) (c : ConfigMap) : (d.addConfigMap c).Owned owner? :=
  ⟨h.volumes, fun name w hname hw =>
    SortedMap.contains_insert.2 (.inr (h.configMaps name w hname hw))⟩

/-- A run that mounts certificates owns the pods that have had no owner. -/
theorem Owned.apply (h : d.Owned owner?) (identity : RuntimeIdentity)
    (certificates : Certificates) :
    (VcsCertificateProvisioner.apply identity certificates d).Owned
      fun name => (owner? name).or (some identity.workspaceId) := by
  constructor
  · intro name pod hpod
    rw [VcsCertificateProvisioner.get?_pods_apply] at hpod
    obtain ⟨before, hbefore, rfl⟩ := Option.map_eq_some_iff.1 hpod
    rw [Pod.certificateVolumes_mountCertificates, h.volumes name before hbefore]
    cases owner? name <;> rfl
  · intro name w hname hw
    have hmaps : (VcsCertificateProvisioner.apply identity certificates d).configMaps =
        d.configMaps.insert (certificateMapName identity.workspaceId)
          (certificateMap identity certificates) := by
      simp [VcsCertificateProvisioner.apply]
    have hbefore : d.pods.contains name = true := by
      rw [SortedMap.contains, VcsCertificateProvisioner.get?_pods_apply, Option.isSome_map] at hname
      exact hname
    rw [hmaps, SortedMap.contains_insert]
    cases howner : owner? name with
    | none =>
      rw [howner] at hw
      obtain rfl := Option.some.inj hw
      exact .inl rfl
    | some first =>
      rw [howner] at hw
      obtain rfl := Option.some.inj hw
      exact .inr (h.configMaps name first hbefore howner)

/-- A run mounts certificates for its workspace or is no part of the history. -/
theorem step_provision (fs : FileSystem) (identity : RuntimeIdentity)
    (p : VcsCertificateProvisioner) (d : Descriptor) :
    let run := Step.provision fs identity p
    (run.mounted? d = none ∧ d.step run = d) ∨
      (run.mounted? d = some identity.workspaceId ∧
        d.step run = VcsCertificateProvisioner.apply identity (p.loaded fs) d) := by
  intro run
  cases hload : (p.loaded fs).isEmpty with
  | true =>
    have hrun : p.provision fs identity d = ⟨.ok (), p, d⟩ :=
      VcsCertificateProvisioner.provision_of_empty hload
    exact .inl ⟨by simp [run, Step.mounted?, hrun, hload], congrArg Outcome.descriptor hrun⟩
  | false =>
    cases hcheck : VcsCertificateProvisioner.check identity d with
    | error e =>
      have hrun := VcsCertificateProvisioner.provision_of_error hload hcheck
      exact .inl ⟨by simp [run, Step.mounted?, hrun], congrArg Outcome.descriptor hrun⟩
    | ok u =>
      have hrun := VcsCertificateProvisioner.provision_of_ok hload hcheck
      exact .inr ⟨by simp [run, Step.mounted?, hrun, hload], congrArg Outcome.descriptor hrun⟩

/-- One step, whatever it is, makes of the first run since a pod was added its owner. -/
theorem Owned.step {runs : String → List String} (h : d.Owned fun name => (runs name).head?)
    {s : Step} (hs : s.AddsRaw) :
    (d.step s).Owned fun name =>
      (if s.adds name then [] else runs name ++ (s.mounted? d).toList).head? := by
  cases s with
  | addPod p =>
    have howner : (fun name => (if (Step.addPod p).adds name then []
        else runs name ++ ((Step.addPod p).mounted? d).toList).head?) =
        fun name => if p.metadata.name = name then none else (runs name).head? := by
      funext name
      by_cases hname : p.metadata.name = name <;> simp [Step.adds, Step.mounted?, hname]
    rw [howner]
    exact h.addPod hs
  | addConfigMap c => simpa [Step.adds, Step.mounted?, Descriptor.step] using h.addConfigMap c
  | provision fs identity p =>
    rcases step_provision fs identity p d with ⟨hnone, hsame⟩ | ⟨hsome, happly⟩
    · rw [hsame, hnone]
      simpa [Step.adds] using h
    · rw [happly, hsome]
      simpa [Step.adds] using h.apply identity (p.loaded fs)

/-- What a descriptor without certificate volumes becomes agrees with its history. -/
theorem owned_after (hd : ∀ name pod, d.pods.get? name = some pod → ¬ pod.spec.HasCertificates)
    (steps : List Step) : (∀ s ∈ steps, s.AddsRaw) →
      (d.after steps).Owned fun name => (d.runsSince name steps).head? := by
  induction steps using List.reverseRecOn with
  | nil =>
    exact fun _ => ⟨fun name pod hpod => PodSpec.certificateVolumes_eq_nil_iff.2 (hd name pod hpod),
      nofun⟩
  | append_singleton steps s ih =>
    intro hsteps
    obtain ⟨hearlier, hs⟩ := List.forall_mem_append.1 hsteps
    simp only [after_concat, runsSince_concat]
    exact (ih hearlier).step (hs s (List.mem_singleton_self s))

/-- Whatever descriptor is reached, a pod has at most one certificate volume. It has one if
and only if certificates have been mounted since the pod was added, and then its volume is
that of the first workspace for which they were, with a config map that is there. -/
theorem volume_of_first_run
    (hd : ∀ name pod, d.pods.get? name = some pod → ¬ pod.spec.HasCertificates)
    {steps : List Step} (hsteps : ∀ s ∈ steps, s.AddsRaw) {taken : List Step}
    (htaken : taken <+: steps) :
    let now := d.after taken
    ∀ name pod, now.pods.get? name = some pod →
      let runs := d.runsSince name taken
      let volumes := pod.spec.volumes.filter fun v => v.name = certificateVolume
      volumes.length ≤ 1 ∧ (volumes.length = 1 ↔ runs ≠ []) ∧
        ∀ workspace, runs.head? = some workspace →
          volumes = [.ofConfigMap certificateVolume (certificateMapName workspace)] ∧
          now.configMaps.contains (certificateMapName workspace) = true := by
  intro now name pod hpod runs volumes
  have howned := owned_after hd taken fun s hs => hsteps s (htaken.subset hs)
  have hvolumes : volumes = (runs.head?.map fun w =>
      .ofConfigMap certificateVolume (certificateMapName w)).toList := howned.volumes name pod hpod
  have hthere : now.pods.contains name = true := Option.isSome_iff_exists.2 ⟨pod, hpod⟩
  cases hruns : runs with
  | nil =>
    rw [hvolumes, hruns]
    exact ⟨Nat.zero_le 1, by simp, nofun⟩
  | cons first later =>
    rw [hvolumes, hruns]
    refine ⟨Nat.le_refl 1, by simp, fun workspace hfirst => ?_⟩
    obtain rfl : first = workspace := Option.some.inj hfirst
    exact ⟨rfl, howned.configMaps name first hthere (congrArg List.head? hruns)⟩

/-- Two pods, one of them added between the runs for two workspaces. Of the other runs one
fails and one finds no certificates. -/
theorem volume_of_first_run_two_workspaces :
    let run workspace := Step.provision VcsCertificateProvisioner.oneCertificate
      ⟨workspace, none⟩ .ofCerts
    let steps := [run "Bad id", .provision default ⟨"none", none⟩ .ofCerts, run "first",
      .addPod (.new "app" default), run "second"]
    let now := (empty.addPod (.new "dev" default)).after steps
    now.pods.keys = ["app", "dev"] ∧
      now.configMaps.keys = [certificateMapName "first", certificateMapName "second"] ∧
      (∀ dev, now.pods.get? "dev" = some dev → dev.spec.certificateVolumes =
        [.ofConfigMap certificateVolume (certificateMapName "first")]) ∧
      ∀ app, now.pods.get? "app" = some app → app.spec.certificateVolumes =
        [.ofConfigMap certificateVolume (certificateMapName "second")] := by
  intro run steps now
  have hstart : ∀ name pod, (empty.addPod (.new "dev" default)).pods.get? name = some pod →
      ¬ pod.spec.HasCertificates := by
    intro name pod hpod
    rw [pods_addPod, SortedMap.get?_insert] at hpod
    split at hpod
    · obtain rfl := Option.some.inj hpod
      decide
    · cases hpod
  have hsteps : ∀ s ∈ steps, s.AddsRaw := by
    simp only [steps, List.forall_mem_cons]
    exact ⟨True.intro, True.intro, True.intro, by unfold Step.AddsRaw; decide, True.intro, nofun⟩
  have howner := volume_of_first_run hstart hsteps (List.prefix_refl steps)
  refine ⟨by decide +kernel, by decide +kernel, fun dev hdev => ?_, fun app happ => ?_⟩
  · exact ((howner "dev" dev hdev).2.2 "first" (by decide +kernel)).1
  · exact ((howner "app" app happ).2.2 "second" (by decide +kernel)).1

end Descriptor

end WorkspaceTrust
