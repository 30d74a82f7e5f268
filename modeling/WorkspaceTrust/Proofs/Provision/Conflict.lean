import Mathlib.Data.List.TakeWhile
import WorkspaceTrust.Proofs.Provision.Mounting

/-!
# When a run fails

A run with certificates to mount fails for one of two reasons. The name
of the config map is not a resource name, or a container that would get
the mount has something else at its path. `DenotesCertificates` says
which paths these are, `Conflicts` which containers, and `FirstConflict`
which of many conflicts is reported: the first pod by its name, in it the
first container (init containers come before the regular ones), in it the
first mount.

The planning pass (`mountConflict?`) reports the first conflict
(`mountConflict?_eq_some`) and misses none (`mountConflict?_eq_none_iff`).
`provision_failure` gives from that the condition under which a run
fails, the error it fails with and the runs that change nothing.
-/

namespace WorkspaceTrust

/-! ## Paths -/

/-- The path is that of the certificate directory, with any number of slashes behind it. -/
def DenotesCertificates (path : String) : Prop :=
  ∃ n : Nat, path.toList = "/etc/che/git/cert".toList ++ List.replicate n '/'

theorem dropWhile_eq_self {p : Char → Bool} {cs : List Char}
    (h : ∀ c, cs.head? = some c → p c = false) : cs.dropWhile p = cs := by
  cases cs with
  | nil => rfl
  | cons c cs => simp [h c rfl]

/-- What is left without the slashes is what comes before them. -/
theorem trimSlashes_eq_iff {path base : String} (hbase : base.toList.getLast? ≠ some '/') :
    trimSlashes path = base ↔ ∃ n : Nat, path.toList = base.toList ++ List.replicate n '/' := by
  constructor
  · rintro rfl
    have hsplit := List.takeWhile_append_dropWhile (p := (· = '/')) (l := path.toList.reverse)
    have hslashes : path.toList.reverse.takeWhile (· = '/') =
        List.replicate (path.toList.reverse.takeWhile (· = '/')).length '/' :=
      List.eq_replicate_of_mem fun c hc => by simpa using List.mem_takeWhile_imp hc
    refine ⟨(path.toList.reverse.takeWhile (· = '/')).length, ?_⟩
    rw [hslashes] at hsplit
    simpa [trimSlashes] using congrArg List.reverse hsplit.symm
  · rintro ⟨n, hn⟩
    have hend : ∀ c, base.toList.reverse.head? = some c → (decide (c = '/')) = false := by
      intro c hc
      rw [List.head?_reverse] at hc
      simpa using fun h : c = '/' => hbase (h ▸ hc)
    have hrest : path.toList.reverse.dropWhile (· = '/') = base.toList.reverse := by
      rw [hn, List.reverse_append, List.reverse_replicate,
        List.dropWhile_append_of_pos (by simp +contextual), dropWhile_eq_self hend]
    simp [trimSlashes, hrest]

theorem trimSlashes_eq_directory_iff (path : String) :
    trimSlashes path = trimSlashes certificateDirectory ↔ DenotesCertificates path := by
  have hdir : trimSlashes certificateDirectory = "/etc/che/git/cert" := by decide +kernel
  rw [hdir, trimSlashes_eq_iff (by decide +kernel)]
  rfl

/-! ## Containers -/

namespace Container

/-- The container would get the mount, and has a mount at its path. -/
def Conflicts (c : Container) : Prop :=
  ¬ c.MountsCertificates ∧ ∃ m ∈ c.volumeMounts, DenotesCertificates m.mountPath

theorem conflictingMount?_of_mounts {c : Container} (h : c.MountsCertificates) :
    c.conflictingMount? = none :=
  if_pos (c.isSome_volumeMount?_iff.2 h)

theorem conflictingMount?_of_not_mounts {c : Container} (h : ¬ c.MountsCertificates) :
    c.conflictingMount? = c.volumeMounts.find? fun m =>
      trimSlashes m.mountPath = trimSlashes certificateDirectory :=
  if_neg fun hs => h (c.isSome_volumeMount?_iff.1 hs)

theorem conflictingMount?_eq_none_iff {c : Container} :
    c.conflictingMount? = none ↔ ¬ c.Conflicts := by
  by_cases h : c.MountsCertificates
  · simp [conflictingMount?_of_mounts h, Conflicts, h]
  · simp [conflictingMount?_of_not_mounts h, Conflicts, h, trimSlashes_eq_directory_iff]

/-- The mount that is reported is the first at the path. -/
theorem conflictingMount?_eq_some {c : Container} {m : VolumeMount}
    (h : c.conflictingMount? = some m) :
    ¬ c.MountsCertificates ∧ DenotesCertificates m.mountPath ∧
      ∃ before after, c.volumeMounts = before ++ m :: after ∧
        ∀ m' ∈ before, ¬ DenotesCertificates m'.mountPath := by
  by_cases hc : c.MountsCertificates
  · simp [conflictingMount?_of_mounts hc] at h
  · rw [conflictingMount?_of_not_mounts hc] at h
    obtain ⟨hm, before, after, hl, hbefore⟩ := List.find?_eq_some_iff_append.1 h
    refine ⟨hc, (trimSlashes_eq_directory_iff _).1 (by simpa using hm), before, after, hl, ?_⟩
    intro m' hm' hd
    have := hbefore m' hm'
    simp [(trimSlashes_eq_directory_iff _).2 hd] at this

end Container

/-! ## Descriptors -/

namespace Descriptor

/-- Some container of some pod conflicts. -/
def Conflicts (d : Descriptor) : Prop :=
  ∃ name pod, (name, pod) ∈ d.pods.entries ∧
    ∃ c ∈ pod.spec.initContainers ++ pod.spec.containers, c.Conflicts

/-- `m` is the first mount in the way, in the first container of the first pod that
has one. Pods are ordered by their names. -/
structure FirstConflict (d : Descriptor) (podName : String) (c : Container)
    (m : VolumeMount) : Prop where
  pods : ∃ pod before after, d.pods.entries = before ++ (podName, pod) :: after ∧
    (∀ other ∈ before,
      ∀ c' ∈ other.2.spec.initContainers ++ other.2.spec.containers, ¬ c'.Conflicts) ∧
    ∃ front back, pod.spec.initContainers ++ pod.spec.containers = front ++ c :: back ∧
      ∀ c' ∈ front, ¬ c'.Conflicts
  not_mounts : ¬ c.MountsCertificates
  denotes : DenotesCertificates m.mountPath
  mounts : ∃ before after, c.volumeMounts = before ++ m :: after ∧
    ∀ m' ∈ before, ¬ DenotesCertificates m'.mountPath

theorem FirstConflict.conflicts {d : Descriptor} {podName : String} {c : Container}
    {m : VolumeMount} (h : d.FirstConflict podName c m) : d.Conflicts := by
  obtain ⟨pod, before, after, hpods, -, front, back, hcs, -⟩ := h.pods
  obtain ⟨mfront, mback, hms, -⟩ := h.mounts
  refine ⟨podName, pod, by simp [hpods], c, by simp [hcs], h.not_mounts, m, ?_, h.denotes⟩
  simp [hms]

theorem mountConflict?_eq_none_iff {d : Descriptor} :
    d.mountConflict? = none ↔ ¬ d.Conflicts := by
  simp only [mountConflict?, List.findSome?_eq_none_iff, Option.map_eq_none_iff,
    Container.conflictingMount?_eq_none_iff, PodSpec.allContainers, Conflicts]
  constructor
  · rintro h ⟨name, pod, hpod, c, hc, hconflict⟩
    exact h (name, pod) hpod c hc hconflict
  · exact fun h q hq c hc hconflict => h ⟨q.1, q.2, hq, c, hc, hconflict⟩

theorem mountConflict?_eq_some {d : Descriptor} {e : ProvisionError}
    (h : d.mountConflict? = some e) :
    ∃ podName c m, d.FirstConflict podName c m ∧
      e = .mountConflict podName c.name m.name m.mountPath := by
  obtain ⟨before, ⟨podName, pod⟩, after, hpods, hpod, hbefore⟩ := List.findSome?_eq_some_iff.1 h
  obtain ⟨front, c, back, hcs, hc, hfront⟩ := List.findSome?_eq_some_iff.1 hpod
  obtain ⟨m, hm, rfl⟩ := Option.map_eq_some_iff.1 hc
  obtain ⟨hmounts, hdenotes, hfirst⟩ := Container.conflictingMount?_eq_some hm
  have hfront' : ∀ c' ∈ front, ¬ c'.Conflicts := fun c' hc' =>
    Container.conflictingMount?_eq_none_iff.1 (by simpa using hfront c' hc')
  have hbefore' : ∀ other ∈ before,
      ∀ c' ∈ other.2.spec.initContainers ++ other.2.spec.containers, ¬ c'.Conflicts := by
    intro other hother c' hc'
    have := List.findSome?_eq_none_iff.1 (hbefore other hother) c' hc'
    exact Container.conflictingMount?_eq_none_iff.1 (by simpa using this)
  exact ⟨podName, c, m, ⟨⟨pod, before, after, hpods, hbefore', front, back, hcs, hfront'⟩,
    hmounts, hdenotes, hfirst⟩, rfl⟩

end Descriptor

/-! ## Runs -/

namespace VcsCertificateProvisioner

variable {fs : FileSystem} {identity : RuntimeIdentity} {p : VcsCertificateProvisioner}
  {d : Descriptor}

theorem check_of_invalidName {fault : ResourceName.Fault}
    (h : ResourceName.check (certificateMapName identity.workspaceId) = .error fault) :
    check identity d = .error (.invalidName (certificateMapName identity.workspaceId) fault) := by
  simp [check, h]

theorem check_of_validName
    (h : ResourceName.check (certificateMapName identity.workspaceId) = .ok ()) :
    check identity d = match d.mountConflict? with
      | some e => .error e
      | none => .ok () := by
  cases hm : d.mountConflict? <;> simp only [check, h, hm]

/-- A check that succeeds has seen a good name and no conflict. -/
theorem check_eq_ok_iff : check identity d = .ok () ↔
    ResourceName.check (certificateMapName identity.workspaceId) = .ok () ∧ ¬ d.Conflicts := by
  cases hn : ResourceName.check (certificateMapName identity.workspaceId) with
  | error fault => simp [check_of_invalidName hn]
  | ok u =>
    rw [check_of_validName hn, ← Descriptor.mountConflict?_eq_none_iff]
    cases d.mountConflict? <;> simp

/-- The name is looked at first; conflicts are reported only under a good name. -/
theorem check_eq_error {e : ProvisionError} (h : check identity d = .error e) :
    (∃ fault, ResourceName.check (certificateMapName identity.workspaceId) = .error fault ∧
      e = .invalidName (certificateMapName identity.workspaceId) fault) ∨
    (ResourceName.check (certificateMapName identity.workspaceId) = .ok () ∧
      ∃ podName c m, d.FirstConflict podName c m ∧
        e = .mountConflict podName c.name m.name m.mountPath) := by
  cases hn : ResourceName.check (certificateMapName identity.workspaceId) with
  | error fault =>
    rw [check_of_invalidName hn] at h
    exact .inl ⟨fault, rfl, (Except.error.inj h).symm⟩
  | ok u =>
    rw [check_of_validName hn] at h
    cases hm : d.mountConflict? with
    | none => simp [hm] at h
    | some e' =>
      rw [hm] at h
      obtain rfl : e' = e := Except.error.inj h
      exact .inr ⟨rfl, Descriptor.mountConflict?_eq_some hm⟩

/-- There is something to mount if there is a trust store and its load finds something. -/
theorem loaded_nonempty_iff : (p.loaded fs).isEmpty = false ↔
    p.isConfigured = true ∧ (p.cache.load fs).1.isEmpty = false := by
  unfold loaded
  split <;> simp_all

/-- When a run fails, with which error, and which runs leave the descriptor as it was. -/
theorem provision_failure (fs : FileSystem) (identity : RuntimeIdentity)
    (p : VcsCertificateProvisioner) (d : Descriptor) :
    let mapName := identity.workspaceId ++ "-che-git-self-signed-cert"
    let outcome := provision fs identity p d
    ((∃ e, outcome.result = .error e) ↔
      p.isConfigured = true ∧ (p.cache.load fs).1.isEmpty = false ∧
        ((∃ fault, ResourceName.check mapName = .error fault) ∨ d.Conflicts))
    ∧ (∀ e, outcome.result = .error e →
      (∃ fault, ResourceName.check mapName = .error fault ∧ e = .invalidName mapName fault) ∨
      (ResourceName.check mapName = .ok () ∧ ∃ podName c m, d.FirstConflict podName c m ∧
        e = .mountConflict podName c.name m.name m.mountPath))
    ∧ ((∃ e, outcome.result = .error e) ∨ p.isConfigured = false ∨
        (p.cache.load fs).1.isEmpty = true → outcome.descriptor = d) := by
  intro mapName outcome
  have herror : ∀ e, outcome.result = .error e ↔
      (p.loaded fs).isEmpty = false ∧ check identity d = .error e :=
    fun e => provision_result_eq_error_iff
  refine ⟨⟨?_, ?_⟩, fun e he => check_eq_error ((herror e).1 he).2, ?_⟩
  · rintro ⟨e, he⟩
    obtain ⟨hload, hcheck⟩ := (herror e).1 he
    obtain ⟨hconfigured, hfound⟩ := loaded_nonempty_iff.1 hload
    refine ⟨hconfigured, hfound, ?_⟩
    rcases check_eq_error hcheck with ⟨fault, hfault, -⟩ | ⟨-, podName, c, m, hfirst, -⟩
    · exact .inl ⟨fault, hfault⟩
    · exact .inr hfirst.conflicts
  · rintro ⟨hconfigured, hfound, hwhy⟩
    have hload := loaded_nonempty_iff.2 ⟨hconfigured, hfound⟩
    cases hcheck : check identity d with
    | error e => exact ⟨e, (herror e).2 ⟨hload, hcheck⟩⟩
    | ok u =>
      obtain ⟨hname, hno⟩ := check_eq_ok_iff.1 hcheck
      rcases hwhy with ⟨fault, hfault⟩ | hconflict
      · exact absurd (hname.symm.trans hfault) (by simp)
      · exact absurd hconflict hno
  · intro h
    cases hload : (p.loaded fs).isEmpty with
    | true =>
      rw [show outcome = provision fs identity p d from rfl, provision_of_empty hload]
    | false =>
      obtain ⟨hconfigured, hfound⟩ := loaded_nonempty_iff.1 hload
      rcases h with ⟨e, he⟩ | hnot | hnothing
      · rw [show outcome = provision fs identity p d from rfl,
          provision_of_error hload ((herror e).1 he).2]
      · simp [hconfigured] at hnot
      · simp [hfound] at hnothing

end VcsCertificateProvisioner

end WorkspaceTrust
