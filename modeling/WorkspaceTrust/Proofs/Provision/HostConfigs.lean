import WorkspaceTrust.Proofs.Certificates.Collection
import WorkspaceTrust.Proofs.Provision.Uses

/-!
# Git settings and mounted certificates

The git settings are made of two things that are looked up at different
times: the certificates, which are those of the first load that found
any, and the files that the store lists now. A stanza is written for a
listed name only if there is a certificate for it (`settings_eq`), and
the certificates are those that every config map of the provisioner
holds. So git is pointed at mounted certificates only.

The other way round, a certificate has a stanza as long as its file is
still listed, and that is so while the files stay as they were
(`mem_listedNames_of_contains`). `hostConfigs_agree` puts this together
for one provisioner at any time of its life, and for two fresh ones.
-/

namespace WorkspaceTrust

/-- The names of the listed files that are text, in the order of the files. -/
def TrustStore.listedNames (store : TrustStore) (fs : FileSystem) : List String :=
  (store.files fs).filterMap fun p => p.fileName?.bind textOfBytes

/-- A certificate that has just been read is in a listed file of its name. -/
theorem TrustStore.mem_listedNames_of_contains {store : TrustStore} {fs : FileSystem} {key : String}
    (h : (fs.readCertificates (store.files fs)).contains key = true) :
    key ∈ store.listedNames fs := by
  obtain ⟨content, hget⟩ := Option.isSome_iff_exists.1 h
  obtain ⟨before, p, after, hfiles, hp, -⟩ := (fs.get?_readCertificates _ key content).1 hget
  have hmem : p ∈ store.files fs := by simp [hfiles]
  exact List.mem_filterMap.2 ⟨p, hmem, hp.name⟩

namespace VcsCertificateProvisioner

/-- The settings for some hosts: one stanza for each, in their order. -/
def settingsFor (hosts : List String) : String :=
  String.join (hosts.map fun host => GitConfig.stanza host certificateDirectory)

/-- Every certificate has a stanza, and just one if no two listed files have its name. -/
def Covered (names : List String) (certificates : Certificates) (hosts : List String) : Prop :=
  ∀ key, certificates.contains key = true →
    1 ≤ hosts.count key ∧ (names.count key ≤ 1 → hosts.count key = 1)

theorem covered_of_listed {names : List String} {certificates : Certificates}
    (h : ∀ key, certificates.contains key = true → key ∈ names) :
    Covered names certificates (names.filter fun name => certificates.contains name) := by
  intro key hkey
  rw [List.count_filter hkey]
  have hpos : 0 < names.count key := List.count_pos_iff.2 (h key hkey)
  exact ⟨hpos, fun hone => Nat.le_antisymm hone hpos⟩

namespace Site

/-- The git settings that the provisioner gives. -/
def settings (s : Site) : String := (s.provisioner.hostConfigs s.fs).1

def store (s : Site) : TrustStore := s.provisioner.cache.store

variable {s : Site} {use : Use} {uses : List Use} {certificates : Certificates}

@[simp] theorem store_next (s : Site) (use : Use) : (s.next use).store = s.store := by
  cases hempty : (s.loads use).isEmpty with
  | true => rw [store, provisioner_next_of_empty hempty, store]
  | false =>
    cases use with
    | provision identity d =>
      rw [store, next, provision_of_loaded hempty]
      cases check identity d <;> exact CertificateCache.store_load ..
    | hostConfigs => exact CertificateCache.store_load ..
    | change fs => rfl

@[simp] theorem store_after (uses : List Use) : ∀ s : Site, (s.after uses).store = s.store := by
  induction uses with
  | nil => exact fun _ => rfl
  | cons use uses ih => exact fun s => (ih (s.next use)).trans (store_next s use)

/-- As long as no other files come up the files stay the same. -/
theorem fs_after_of_unchanged {fs : FileSystem} : ∀ {s : Site}, s.fs = fs →
    (∀ fs', .change fs' ∈ uses → fs' = fs) → (s.after uses).fs = fs := by
  induction uses with
  | nil => exact fun h _ => h
  | cons use uses ih =>
    intro s h hsame
    refine ih ?_ fun fs' hmem => hsame fs' (List.mem_cons_of_mem _ hmem)
    cases use with
    | provision identity d => exact h
    | hostConfigs => exact h
    | change fs' => exact hsame fs' (List.mem_cons_self ..)

/-- Uses that load nothing leave the provisioner as it was. -/
theorem provisioner_after_of_empty : ∀ {s : Site},
    (∀ loaded ∈ s.answers uses, loaded.isEmpty = true) →
      (s.after uses).provisioner = s.provisioner := by
  induction uses with
  | nil => exact fun _ => rfl
  | cons use uses ih =>
    intro s h
    obtain ⟨hempty, hlater⟩ := List.forall_mem_cons.1 h
    exact (ih hlater).trans (provisioner_next_of_empty hempty)

/-- There is a stanza for each listed name with a certificate, and no other. -/
theorem settings_eq (s : Site) : s.settings = settingsFor
    ((s.store.listedNames s.fs).filter fun name => (s.loads .hostConfigs).contains name) := by
  simp only [settings, hostConfigs, CertificateCache.store_load]
  rfl

theorem settings_of_found (h : s.provisioner.cache.found = some certificates) :
    s.settings = settingsFor
      ((s.store.listedNames s.fs).filter fun name => certificates.contains name) := by
  have hloads : s.loads .hostConfigs = certificates := by
    rw [loads, CertificateCache.load_of_found h]
  rw [settings_eq, hloads]

theorem settings_of_empty (h : (s.loads .hostConfigs).isEmpty = true) : s.settings = "" := by
  have hnone : ∀ name, (s.loads .hostConfigs).contains name = false := by
    intro name
    rw [SortedMap.contains, SortedMap.get?, List.isEmpty_iff.1 h]
    rfl
  rw [settings_eq, List.filter_eq_nil_iff.2 fun name _ => by simp [hnone]]
  rfl

/-- What a use finds that is the first to find anything is what the store holds. -/
theorem loads_of_none (h : s.provisioner.cache.found = none)
    (hloads : (s.loads use).isEmpty = false) :
    s.loads use = s.fs.readCertificates (s.store.files s.fs) := by
  cases use with
  | provision identity d =>
    exact (load_fst_of_loaded hloads).symm.trans (CertificateCache.load_fst_of_none h)
  | hostConfigs => exact CertificateCache.load_fst_of_none h
  | change fs => simp [loads] at hloads

/-- What is found first is covered by the settings while the files stay as they were. -/
theorem covered_after {later : List Use} (hnone : s.provisioner.cache.found = none)
    (hfound : (s.loads use).isEmpty = false) (hsame : ∀ fs, .change fs ∈ later → fs = s.fs) :
    let names := s.store.listedNames (s.after (use :: later)).fs
    Covered names (s.loads use) (names.filter fun name => (s.loads use).contains name) := by
  intro names
  have hnext : (s.next use).fs = s.fs := by
    cases use with
    | change fs => simp [loads] at hfound
    | _ => rfl
  have hfs : ((s.next use).after later).fs = s.fs := fs_after_of_unchanged hnext hsame
  refine covered_of_listed fun key hkey => ?_
  rw [loads_of_none hnone hfound] at hkey
  have hnames : names = s.store.listedNames s.fs := congrArg s.store.listedNames hfs
  rw [hnames]
  exact TrustStore.mem_listedNames_of_contains hkey

/-- What a run writes is what the settings are made for if both find it first. -/
theorem settings_of_written {m : ConfigMap} (hnone : s.provisioner.cache.found = none)
    (hm : s.written? use = some m) : s.settings = settingsFor
      ((s.store.listedNames s.fs).filter fun name => m.data.contains name) := by
  obtain ⟨hloads, hdata⟩ := data_of_written? hm
  have hsettings : s.loads .hostConfigs = m.data := by
    rw [hdata, loads_of_none hnone hloads]
    exact CertificateCache.load_fst_of_none hnone
  rw [settings_eq, hsettings]

end Site

/-- The git settings agree with the mounted certificates. Once a use has loaded some, there
are stanzas for just those of them whose files are listed now, and these certificates are
the data of every config map that the provisioner ever writes; while the files stay as they
were when something was found first, each of them has a stanza. As long as nothing has been
found there are no settings. Two fresh provisioners agree in the same way. -/
theorem hostConfigs_agree (store : TrustStore) (fs : FileSystem) (earlier : List Use) (use : Use)
    (later : List Use) :
    let start := Site.fresh fs store
    let before := start.after earlier
    let found := before.loads use
    let now := before.after (use :: later)
    let names := store.listedNames now.fs
    let hosts := names.filter fun name => found.contains name
    (found.isEmpty = false →
      now.settings = settingsFor hosts
      ∧ (∀ afterwards, ∀ m ∈ start.written (earlier ++ use :: later ++ afterwards),
          m.data = found ∧ ∀ host ∈ hosts, m.data.contains host = true)
      ∧ ((∀ loaded ∈ start.answers earlier, loaded.isEmpty = true) →
          (∀ fs', .change fs' ∈ later → fs' = before.fs) → Covered names found hosts))
    ∧ ((before.loads .hostConfigs).isEmpty = true → before.settings = "")
    ∧ ∀ identity d m, start.written? (.provision identity d) = some m →
        let names := store.listedNames fs
        let hosts := names.filter fun name => m.data.contains name
        start.settings = settingsFor hosts ∧ Covered names m.data hosts := by
  intro start before found now names hosts
  have hstore : before.store = store := Site.store_after earlier start
  refine ⟨fun hfound => ⟨?_, fun afterwards m hm => ?_, fun hfirst hsame => ?_⟩,
    Site.settings_of_empty, fun identity d m hm => ⟨Site.settings_of_written rfl hm, ?_⟩⟩
  · have hnow : now.provisioner.cache.found = some found :=
      Site.found_after later (Site.found_next_of_loads hfound)
    rw [Site.settings_of_found hnow, Site.store_after, hstore]
  · rw [List.append_assoc] at hm
    have hdata : m.data = found := Site.data_of_written hfound hm
    exact ⟨hdata, fun host hhost => hdata ▸ (List.mem_filter.1 hhost).2⟩
  · have hnone : before.provisioner.cache.found = none := by
      rw [Site.provisioner_after_of_empty hfirst]
      rfl
    have hcovered := Site.covered_after hnone hfound hsame
    rwa [hstore] at hcovered
  · obtain ⟨hloads, hdata⟩ := Site.data_of_written? hm
    rw [hdata]
    exact @Site.covered_after start (.provision identity d) [] rfl hloads nofun

theorem hostConfigs_agree_one_certificate :
    let start := Site.fresh oneCertificate ofCerts.cache.store
    (start.after [.hostConfigs]).settings =
        "[http \"https://localhost*\"]\n\tsslCAInfo = /etc/che/git/cert/localhost\n"
      ∧ (∀ afterwards, ∀ m ∈ start.written (.hostConfigs :: afterwards),
          m.data.contains "localhost" = true)
      ∧ Covered ["localhost"] (start.loads .hostConfigs) ["localhost"] := by
  intro start
  obtain ⟨hsettings, hwritten, hcovered⟩ :=
    (hostConfigs_agree ofCerts.cache.store oneCertificate [] .hostConfigs []).1 (by decide +kernel)
  have hnames : start.store.listedNames oneCertificate = ["localhost"] := by decide +kernel
  have hhosts : (start.store.listedNames oneCertificate).filter
      (fun name => (start.loads .hostConfigs).contains name) = ["localhost"] := by decide +kernel
  refine ⟨hsettings.trans ?_, fun afterwards m hm => ?_, ?_⟩
  · exact (congrArg settingsFor hhosts).trans (by decide +kernel)
  · exact (hwritten afterwards m hm).2 "localhost" (hhosts ▸ List.mem_singleton_self _)
  · have hall : Covered (start.store.listedNames oneCertificate) (start.loads .hostConfigs)
        ((start.store.listedNames oneCertificate).filter
          fun name => (start.loads .hostConfigs).contains name) := hcovered nofun nofun
    rwa [hhosts, hnames] at hall

end VcsCertificateProvisioner

end WorkspaceTrust
