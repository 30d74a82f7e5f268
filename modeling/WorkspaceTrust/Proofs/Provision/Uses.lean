import Mathlib.Tactic.SplitIfs
import WorkspaceTrust.Proofs.Certificates.Answers
import WorkspaceTrust.Proofs.Provision.Mounting

/-!
# One provisioner, used again and again

A provisioner runs for many workspaces and descriptors and is asked for
the git settings in between, while the files change: a list of `Use`s. A
`Site` is a provisioner among the files of its time.

Every use loads certificates (`loads`), and a run that succeeds with some
writes them into a config map (`written?`, `configMaps_provision`). What
a use has loaded is in the cache from then on (`found_next_of_loads`,
`found_after`), so that the config maps of all runs have the data that
the cache holds in the end (`found_after_of_written`).
-/

namespace WorkspaceTrust

namespace VcsCertificateProvisioner

/-- What can happen around a provisioner: it runs, it is asked for the git settings, or the
files change. -/
inductive Use where
  | provision (identity : RuntimeIdentity) (d : Descriptor)
  | hostConfigs
  | change (fs : FileSystem)

/-- A provisioner and the files of its time. -/
structure Site where
  fs : FileSystem
  provisioner : VcsCertificateProvisioner

namespace Site

/-- A provisioner for a trust store, before its first use. -/
def fresh (fs : FileSystem) (store : TrustStore) : Site := ⟨fs, ⟨.ofStore store⟩⟩

/-- The site after a use. -/
def next (s : Site) : Use → Site
  | .provision identity d => ⟨s.fs, (s.provisioner.provision s.fs identity d).provisioner⟩
  | .hostConfigs => ⟨s.fs, (s.provisioner.hostConfigs s.fs).2⟩
  | .change fs => ⟨fs, s.provisioner⟩

def after : List Use → Site → Site
  | [], s => s
  | use :: uses, s => (s.next use).after uses

/-- The certificates that a use loads. -/
def loads (s : Site) : Use → Certificates
  | .provision _ _ => s.provisioner.loaded s.fs
  | .hostConfigs => (s.provisioner.cache.load s.fs).1
  | .change _ => .empty

/-- What the uses load, one after the other. -/
def answers : List Use → Site → List Certificates
  | [], _ => []
  | use :: uses, s => s.loads use :: (s.next use).answers uses

/-- The config map that a use writes: a run does if it succeeds with certificates. -/
def written? (s : Site) : Use → Option ConfigMap
  | .provision identity d =>
      let outcome := s.provisioner.provision s.fs identity d
      match outcome.result with
      | .error _ => none
      | .ok () =>
          if (s.provisioner.loaded s.fs).isEmpty then none
          else outcome.descriptor.configMaps.get? (certificateMapName identity.workspaceId)
  | .hostConfigs | .change _ => none

/-- The config maps that the uses write. -/
def written : List Use → Site → List ConfigMap
  | [], _ => []
  | use :: uses, s => (s.written? use).toList ++ (s.next use).written uses

variable {s : Site} {use : Use} {uses : List Use} {certificates : Certificates}

theorem after_append (uses later : List Use) : ∀ s : Site,
    s.after (uses ++ later) = (s.after uses).after later := by
  induction uses with
  | nil => exact fun _ => rfl
  | cons use uses ih => exact fun s => ih (s.next use)

/-! ## What a use loads and writes -/

/-- A use without certificates leaves the provisioner as it was. -/
theorem provisioner_next_of_empty (h : (s.loads use).isEmpty = true) :
    (s.next use).provisioner = s.provisioner := by
  cases use with
  | provision identity d =>
    rw [next, provision_of_empty h]
  | hostConfigs =>
    show (⟨(s.provisioner.cache.load s.fs).2⟩ : VcsCertificateProvisioner) = s.provisioner
    rw [CertificateCache.load_snd_of_empty h]
  | change fs => rfl

/-- The certificates that a use loads are in the cache afterwards. -/
theorem found_next_of_loads (h : (s.loads use).isEmpty = false) :
    (s.next use).provisioner.cache.found = some (s.loads use) := by
  cases use with
  | provision identity d =>
    have hload := load_fst_of_loaded h
    have hnext : (s.next (.provision identity d)).provisioner = s.provisioner.afterLoad s.fs := by
      rw [next, provision_of_loaded h]
      cases check identity d <;> rfl
    rw [hnext, loads, ← hload]
    rw [loads, ← hload] at h
    exact CertificateCache.found_load_of_nonempty h
  | hostConfigs => exact CertificateCache.found_load_of_nonempty h
  | change fs => simp [loads] at h

/-- What is in the cache is what every use loads that loads anything. -/
theorem loads_of_found (h : s.provisioner.cache.found = some certificates)
    (hloads : (s.loads use).isEmpty = false) : s.loads use = certificates := by
  have hfst : (s.provisioner.cache.load s.fs).1 = certificates := by
    rw [CertificateCache.load_of_found h]
  cases use with
  | provision identity d => exact (load_fst_of_loaded hloads).symm.trans hfst
  | hostConfigs => exact hfst
  | change fs => simp [loads] at hloads

/-- What is in the cache stays there. -/
theorem found_next (h : s.provisioner.cache.found = some certificates) (use : Use) :
    (s.next use).provisioner.cache.found = some certificates := by
  cases hempty : (s.loads use).isEmpty with
  | true => rwa [provisioner_next_of_empty hempty]
  | false => rw [found_next_of_loads hempty, loads_of_found h hempty]

/-- A run writes if it loads certificates and its check succeeds. -/
theorem written?_provision (s : Site) (identity : RuntimeIdentity) (d : Descriptor) :
    s.written? (.provision identity d) =
      if (s.provisioner.loaded s.fs).isEmpty = false ∧ check identity d = .ok ()
      then some (certificateMap identity (s.provisioner.loaded s.fs)) else none := by
  cases hload : (s.provisioner.loaded s.fs).isEmpty with
  | true => simp [written?, provision_of_empty hload, hload]
  | false =>
    cases hcheck : check identity d with
    | error e => simp [written?, provision_of_error hload hcheck]
    | ok u => simp [written?, provision_of_ok hload hcheck, hload, get?_configMaps_apply]

/-- A run adds to the config maps what it writes, and nothing else. -/
theorem configMaps_provision (s : Site) (identity : RuntimeIdentity) (d : Descriptor) :
    (s.provisioner.provision s.fs identity d).descriptor.configMaps =
      match s.written? (.provision identity d) with
      | none => d.configMaps
      | some m => d.configMaps.insert (certificateMapName identity.workspaceId) m := by
  rw [written?_provision]
  split_ifs with h
  · obtain ⟨hload, hcheck⟩ := h
    rw [provision_of_ok hload hcheck]
    simp [apply]
  · rcases provision_cases s.fs identity s.provisioner d with hsame | ⟨hload, hcheck, -, -⟩
    · rw [hsame]
    · exact absurd ⟨hload, hcheck⟩ h

theorem data_of_written? {m : ConfigMap} (h : s.written? use = some m) :
    (s.loads use).isEmpty = false ∧ m.data = s.loads use := by
  cases use with
  | provision identity d =>
    rw [written?_provision] at h
    split_ifs at h with hwrites
    cases h
    exact ⟨hwrites.1, by rw [certificateMap_eq]; rfl⟩
  | hostConfigs => cases h
  | change fs => cases h

/-! ## Many uses -/

theorem found_after (uses : List Use) : ∀ {s : Site},
    s.provisioner.cache.found = some certificates →
      (s.after uses).provisioner.cache.found = some certificates := by
  induction uses with
  | nil => exact id
  | cons use uses ih => exact fun h => ih (found_next h use)

/-- Whatever is written by the way is what the cache holds in the end. -/
theorem found_after_of_written {m : ConfigMap} : ∀ {s : Site}, m ∈ s.written uses →
    (s.after uses).provisioner.cache.found = some m.data := by
  induction uses with
  | nil => exact nofun
  | cons use uses ih =>
    intro s hm
    rcases List.mem_append.1 hm with hm | hm
    · obtain ⟨hloads, hdata⟩ := data_of_written? (Option.mem_toList.1 hm)
      rw [hdata]
      exact found_after uses (found_next_of_loads hloads)
    · exact ih hm

/-- Once a use has loaded something, all that is written, before or after, is what it has
loaded. -/
theorem data_of_written {m : ConfigMap} {earlier later : List Use}
    (hfound : ((s.after earlier).loads use).isEmpty = false)
    (hm : m ∈ s.written (earlier ++ use :: later)) : m.data = (s.after earlier).loads use := by
  have hend : (s.after (earlier ++ use :: later)).provisioner.cache.found =
      some ((s.after earlier).loads use) := by
    rw [after_append]
    exact found_after later (found_next_of_loads hfound)
  exact Option.some.inj ((found_after_of_written hm).symm.trans hend)

/-- The config maps that one provisioner writes all have the same data. -/
theorem data_eq_of_written {m n : ConfigMap} (hm : m ∈ s.written uses) (hn : n ∈ s.written uses) :
    m.data = n.data :=
  Option.some.inj ((found_after_of_written hm).symm.trans (found_after_of_written hn))

end Site

end VcsCertificateProvisioner

namespace CertificateCache

/-- The answers of a fresh cache settle, for any number of callers and however their loads and
the changes of the files are interleaved. So the config maps that one provisioner ever writes,
for whatever workspaces and descriptors, have the same data. -/
theorem answers_settle (store : TrustStore) (fs : FileSystem) :
    (∀ (Caller : Type) (events : List (Event Caller)),
      Settles store (answers events fs (ofStore store)))
    ∧ ∀ (s : VcsCertificateProvisioner.Site) (uses : List VcsCertificateProvisioner.Use),
        ∀ m ∈ s.written uses, ∀ n ∈ s.written uses, m.data = n.data :=
  ⟨fun _ events => settles_answers store events fs,
    fun _ _ _ hm _ hn => VcsCertificateProvisioner.Site.data_eq_of_written hm hn⟩

end CertificateCache

end WorkspaceTrust
