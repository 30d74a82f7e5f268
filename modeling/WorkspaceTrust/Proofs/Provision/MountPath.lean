import WorkspaceTrust.FileSystem.Path
import WorkspaceTrust.Proofs.FileSystem.Path
import WorkspaceTrust.Proofs.Provision.Conflict

/-!
# Paths of mounts

A path can be spelled in many ways: a slash more, or a point between two
slashes, leads nowhere else. `LeadsToCertificates` compares paths by
their components and so does not depend on the spelling.

The check for conflicts compares spellings. Of the paths that lead to the
directory of the certificates it knows those that are `Plain`, with one
slash before each component and any number of slashes behind the last
(`denotesCertificates_iff`). So these are the conflicts that end a run,
and in a container that a successful run has changed no other mount is on
the directory by a plain path (`provision_of_plain_paths`); by another
path there can be one (`stacks_mounts_behind_point`).
-/

namespace WorkspaceTrust

namespace Path

variable {p : Path}

/-! ## Plain paths -/

/-- One slash before each component, and only slashes behind the last. -/
def Plain (p : Path) : Prop :=
  ∃ n : Nat, p.bytes = p.components.flatMap (slash :: ·) ++ List.replicate n slash

theorem names_append_slashes (bs : List UInt8) (n : Nat) :
    (Path.mk (bs ++ List.replicate n slash)).names = (Path.mk bs).names := by
  induction n with
  | zero => rw [List.replicate_zero, List.append_nil]
  | succ n ih =>
    have hpieces : pieces (bs ++ List.replicate n slash ++ [slash]) =
        pieces (bs ++ List.replicate n slash) ++ pieces [] := pieces_append_slash [] _
    rw [List.replicate_succ', ← List.append_assoc, names, hpieces, List.filter_append, ← ih]
    exact List.append_nil _

/-- Slashes behind a path that begins with one are no components. -/
theorem components_append_slashes {bs : List UInt8} (h : bs.head? = some slash) (n : Nat) :
    (Path.mk (bs ++ List.replicate n slash)).components = (Path.mk bs).components := by
  have habsolute :
      (Path.mk (bs ++ List.replicate n slash)).isAbsolute = (Path.mk bs).isAbsolute := by
    simp [isAbsolute, h]
  rw [components, names_append_slashes, habsolute, components]

end Path

theorem utf8_append (s t : String) : utf8 (s ++ t) = utf8 s ++ utf8 t := by
  simp [utf8]

theorem utf8_slashes (n : Nat) :
    utf8 (String.ofList (List.replicate n '/')) = List.replicate n Path.slash := by
  induction n with
  | zero => rfl
  | succ n ih =>
    have hslash : String.ofList (List.replicate (n + 1) '/') =
        String.ofList ['/'] ++ String.ofList (List.replicate n '/') := by
      rw [← String.ofList_append]
      rfl
    rw [hslash, utf8_append, ih]
    rfl

/-- The path leads to the directory of the certificates, however it is spelled. -/
def LeadsToCertificates (path : String) : Prop :=
  (Path.ofString path).isAbsolute = true ∧
    (Path.ofString path).components = (Path.ofString certificateDirectory).components

instance (path : String) : Decidable (LeadsToCertificates path) :=
  inferInstanceAs (Decidable (_ ∧ _))

/-- Slashes behind a text are slashes behind its bytes. -/
theorem utf8_eq_append_slashes_iff {path base : String} {n : Nat} :
    utf8 path = utf8 base ++ List.replicate n Path.slash ↔
      path.toList = base.toList ++ List.replicate n '/' := by
  rw [← utf8_slashes, ← utf8_append]
  constructor
  · intro h
    rw [utf8_injective h, String.toList_append, String.toList_ofList]
  · intro h
    refine congrArg utf8 (String.toList_inj.1 ?_)
    rw [h, String.toList_append, String.toList_ofList]

theorem components_certificateDirectory : (Path.ofString certificateDirectory).components =
    [utf8 "etc", utf8 "che", utf8 "git", utf8 "cert"] := by decide +kernel

/-- Of the paths that lead to the directory the check knows the plain ones. -/
theorem denotesCertificates_iff {path : String} : DenotesCertificates path ↔
    LeadsToCertificates path ∧ (Path.ofString path).Plain := by
  have hplain : utf8 "/etc/che/git/cert" =
      [utf8 "etc", utf8 "che", utf8 "git", utf8 "cert"].flatMap (Path.slash :: ·) := by
    decide +kernel
  constructor
  · -- what is trimmed off are slashes, and they are no components
    rintro ⟨n, hn⟩
    have hn := utf8_eq_append_slashes_iff.2 hn
    have hpath : Path.ofString path =
        ⟨utf8 "/etc/che/git/cert" ++ List.replicate n Path.slash⟩ := congrArg Path.mk hn
    have hhead : (utf8 "/etc/che/git/cert").head? = some Path.slash := by decide +kernel
    have hcomponents : (Path.ofString path).components =
        [utf8 "etc", utf8 "che", utf8 "git", utf8 "cert"] := by
      rw [hpath, Path.components_append_slashes hhead]
      decide +kernel
    refine ⟨⟨?_, hcomponents.trans components_certificateDirectory.symm⟩, n, ?_⟩
    · rw [hpath]
      simp [Path.isAbsolute, hhead]
    · rw [hcomponents, ← hplain]
      exact hn
  · -- a plain path is given by its components, up to the slashes behind it
    rintro ⟨⟨-, hcomponents⟩, n, hn⟩
    rw [hcomponents, components_certificateDirectory, ← hplain] at hn
    exact ⟨n, utf8_eq_append_slashes_iff.1 hn⟩

/-! ## Runs -/

/-- The mount is on the directory of the certificates, by a plain path. -/
def VolumeMount.Covers (m : VolumeMount) : Prop :=
  LeadsToCertificates m.mountPath ∧ (Path.ofString m.mountPath).Plain

/-- The conflicts are the containers that would get the mount and have one that covers it. -/
theorem Descriptor.conflicts_iff {d : Descriptor} : d.Conflicts ↔
    ∃ name pod, (name, pod) ∈ d.pods.entries ∧
      ∃ c ∈ pod.spec.initContainers ++ pod.spec.containers,
        ¬ c.MountsCertificates ∧ ∃ m ∈ c.volumeMounts, m.Covers := by
  simp only [Conflicts, Container.Conflicts, denotesCertificates_iff, VolumeMount.Covers]

/-- In a container without a conflict only the mount that it gets covers the directory. -/
theorem Container.eq_of_covers {c : Container} {m : VolumeMount} (h : ¬ c.Conflicts)
    (hmounts : ¬ c.MountsCertificates) (hm : m ∈ c.mountCertificates.volumeMounts)
    (hcovers : m.Covers) :
    m = .readonly certificateVolume certificateDirectory := by
  rw [mountCertificates_of_not_mounts hmounts] at hm
  obtain hm | hm := List.mem_append.1 hm
  · exact absurd ⟨hmounts, m, hm, denotesCertificates_iff.2 hcovers⟩ h
  · exact List.mem_singleton.1 hm

namespace VcsCertificateProvisioner

variable {fs : FileSystem} {identity : RuntimeIdentity} {p : VcsCertificateProvisioner}
  {d : Descriptor}

/-- Under a good name and with certificates a run fails exactly if a container that would get
the mount has one that leads to the directory by a plain path. The error names the first of
them, and nothing is changed. After a run that succeeds, each container either mounted the
certificates before, or the mount it has got is the only one that leads there by a plain path. -/
theorem provision_of_plain_paths (hload : (p.loaded fs).isEmpty = false)
    (hname : ResourceName.check (certificateMapName identity.workspaceId) = .ok ()) :
    let outcome := provision fs identity p d
    ((∃ e, outcome.result = .error e) ↔
      ∃ name pod, (name, pod) ∈ d.pods.entries ∧
        ∃ c ∈ pod.spec.initContainers ++ pod.spec.containers,
          ¬ c.MountsCertificates ∧ ∃ m ∈ c.volumeMounts, m.Covers) ∧
    (∀ e, outcome.result = .error e → outcome.descriptor = d ∧
      ∃ podName c m, d.FirstConflict podName c m ∧
        e = .mountConflict podName c.name m.name m.mountPath) ∧
    (outcome.result = .ok () → ∀ name pod, outcome.descriptor.pods.get? name = some pod →
      ∃ before, d.pods.get? name = some before ∧
        List.Forall₂ (fun c c' => c.MountsCertificates ∨
            ∀ m ∈ c'.volumeMounts, m.Covers → m = .readonly certificateVolume certificateDirectory)
          before.spec.allContainers pod.spec.allContainers) := by
  intro outcome
  have herror : ∀ e, outcome.result = .error e ↔ check identity d = .error e :=
    fun e => provision_result_eq_error_iff.trans (and_iff_right hload)
  refine ⟨?_, fun e he => ?_, fun hok name pod hpod => ?_⟩
  · -- the name is good, so only a conflict is left for the check to find
    have hcheck : (∃ e, check identity d = .error e) ↔ d.Conflicts := by
      rw [check_of_validName hname]
      cases hconflict : d.mountConflict? with
      | none => simpa using Descriptor.mountConflict?_eq_none_iff.1 hconflict
      | some e =>
        obtain ⟨podName, c, m, hfirst, -⟩ := Descriptor.mountConflict?_eq_some hconflict
        simpa using hfirst.conflicts
    simp only [herror, hcheck]
    exact Descriptor.conflicts_iff
  · have hcheck := (herror e).1 he
    refine ⟨congrArg Outcome.descriptor (provision_of_error hload hcheck), ?_⟩
    obtain ⟨fault, hfault, -⟩ | ⟨-, hfirst⟩ := check_eq_error hcheck
    · rw [hname] at hfault
      cases hfault
    · exact hfirst
  · have hcheck := check_of_provision_ok hload hok
    have hconflicts := (check_eq_ok_iff.1 hcheck).2
    have happly : outcome.descriptor = apply identity (p.loaded fs) d :=
      congrArg Outcome.descriptor (provision_of_ok hload hcheck)
    rw [happly, get?_pods_apply, Option.map_eq_some_iff] at hpod
    obtain ⟨before, hbefore, rfl⟩ := hpod
    refine ⟨before, hbefore, ?_⟩
    have hcontainers : ∀ mapName, (before.mountCertificates mapName).spec.allContainers =
        before.spec.allContainers.map Container.mountCertificates :=
      fun _ => PodSpec.allContainers_mapContainers ..
    rw [hcontainers, List.forall₂_map_right_iff, List.forall₂_same]
    intro c hc
    by_cases hmounts : c.MountsCertificates
    · exact .inl hmounts
    · have hc' : ¬ c.Conflicts := fun h =>
        hconflicts ⟨name, before, SortedMap.get?_eq_some_iff.1 hbefore, c, hc, h⟩
      exact .inr fun m hm hcovers => Container.eq_of_covers hc' hmounts hm hcovers

/-- A pod with one container that mounts a volume of its own at a path. -/
def podWithMount (mountPath : String) : Pod :=
  .new "dev" ⟨[], [⟨"tooling", none, [⟨"own", mountPath, none, none, .none⟩], .none⟩],
    [⟨"own", none, .none⟩], .none⟩

theorem provision_of_plain_paths_slashes :
    let d := Descriptor.empty.addPod (podWithMount "/etc/che/git/cert//")
    let outcome := provision oneCertificate ⟨"ws", none⟩ ofCerts d
    outcome.descriptor = d ∧ ∃ podName c m, d.FirstConflict podName c m ∧
      outcome.result = .error (.mountConflict podName c.name m.name m.mountPath) := by
  intro d outcome
  have hload : (ofCerts.loaded oneCertificate).isEmpty = false := by decide +kernel
  have hname : ResourceName.check (certificateMapName "ws") = .ok () := by decide
  have hleads : LeadsToCertificates "/etc/che/git/cert//" := by decide +kernel
  have hplain : (Path.ofString "/etc/che/git/cert//").Plain := ⟨2, by decide +kernel⟩
  obtain ⟨hfails, herror, -⟩ :=
    @provision_of_plain_paths oneCertificate ⟨"ws", none⟩ ofCerts d hload hname
  obtain ⟨e, he⟩ := hfails.2 ⟨"dev", podWithMount "/etc/che/git/cert//", List.mem_singleton_self _,
    _, List.mem_singleton_self _, by decide, _, List.mem_singleton_self _, hleads, hplain⟩
  obtain ⟨hsame, podName, c, m, hfirst, rfl⟩ := herror e he
  exact ⟨hsame, podName, c, m, hfirst, he⟩

/-- A point in the path hides a mount from the check: the run succeeds, and the container has
two volumes on the directory of the certificates. -/
theorem stacks_mounts_behind_point :
    let d := Descriptor.empty.addPod (podWithMount "/etc/che/./git/cert")
    let outcome := provision oneCertificate ⟨"ws", none⟩ ofCerts d
    (ofCerts.loaded oneCertificate).isEmpty = false ∧
    ResourceName.check (certificateMapName "ws") = .ok () ∧
    LeadsToCertificates "/etc/che/./git/cert" ∧
    outcome.result = .ok () ∧
    (outcome.descriptor.pods.get? "dev").map (fun pod => pod.spec.allContainers.map fun c =>
        (c.volumeMounts.filter fun m => LeadsToCertificates m.mountPath).map VolumeMount.name) =
      some [["own", certificateVolume]] := by
  refine ⟨?_, ?_, ?_, ?_, ?_⟩ <;> decide +kernel

end VcsCertificateProvisioner

end WorkspaceTrust
