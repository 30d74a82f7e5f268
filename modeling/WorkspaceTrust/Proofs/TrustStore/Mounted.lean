import WorkspaceTrust.Proofs.Provision.HostConfigs
import WorkspaceTrust.Proofs.TrustStore.Visible

/-!
# Certificates that a cluster mounts

A cluster mounts a map of texts as a directory in which there are three
ways to each text: the file itself in a hidden directory that belongs to
this version of the map, the link `..data` to that directory, and a link
of the file's name that leads through `..data` (`Mounted`). What belongs
to other versions may be there as well, as long as it is hidden.

Only the last of these ways is shown. The path of a name leads over two
links to the file (`Mounted.locate_join`), so that the store lists each
name once and in order (`Mounted.filesBelow_eq`), reads the map again
(`Mounted.readCertificates_eq`) and has one stanza for each name
(`TrustStore.settings_of_mounted`). These two links must not be too many
and the path not too long: `HasRoom` asks this of the root.
-/

namespace WorkspaceTrust

/-- A text is spelled by its own bytes. -/
theorem textOfBytes_utf8 (s : String) : textOfBytes (utf8 s) = some s := by
  rw [textOfBytes, String.fromUTF8?]
  exact dif_pos s.isValidUTF8

/-- Where only what passes a test gives anything, it gives as much as what passes. -/
theorem flatMap_ite_singleton {α β : Type} (p : α → Bool) (f : α → β) : ∀ l : List α,
    (l.flatMap fun a => if p a then [f a] else []) = (l.filter p).map f
  | [] => rfl
  | a :: l => by
      have ih := flatMap_ite_singleton p f l
      cases hp : p a <;> simp [hp, ih]

/-- A name that a file can be given. -/
structure FileName.Allowed (name : FileName) : Prop extends name.Proper where
  no_nul : 0 ∉ name
  length_le : name.length ≤ FileSystem.maxNameLength

instance (name : FileName) : Decidable name.Allowed :=
  decidable_of_iff (name.Proper ∧ 0 ∉ name ∧ name.length ≤ FileSystem.maxNameLength)
    ⟨fun h => ⟨h.1, h.2.1, h.2.2⟩, fun h => ⟨h.toProper, h.no_nul, h.length_le⟩⟩

/-- A version of a map of texts that is mounted, with the stamp that tells it from others. -/
structure Publication where
  stamp : FileName
  data : Certificates

namespace Publication

variable {u : Publication} {name : FileName} {e : Entry} {make : String → String → Entry}

/-- The link to the directory with the files of the version that is mounted. -/
def dataName : FileName := utf8 "..data"

/-- Where the link of a name leads. -/
def dataPath (name : FileName) : Path := Path.join ⟨dataName⟩ name

/-- The name of the directory with the files of the version. -/
def directory (u : Publication) : FileName := Path.up ++ u.stamp

/-- The names of the files, in the order of their bytes. -/
def names (u : Publication) : List FileName := u.data.keys.map utf8

/-- An entry of its name for each text. -/
def entriesOf (u : Publication) (make : String → String → Entry) : SortedMap FileName Entry where
  entries := u.data.entries.map fun (n, content) => (utf8 n, make n content)
  increasing := List.pairwise_map.2 u.data.increasing

/-- The files of the version. -/
def files (u : Publication) : SortedMap FileName Entry :=
  u.entriesOf fun _ content => .file (utf8 content)

/-- The links that lead through `..data`. -/
def links (u : Publication) : SortedMap FileName Entry :=
  u.entriesOf fun n _ => .link (dataPath (utf8 n))

/-- The directory and the files have names that can be given, and those of the files are not
hidden. -/
structure Valid (u : Publication) : Prop where
  stamp_ne_nil : u.stamp ≠ []
  directory : u.directory.Allowed
  directory_ne : u.directory ≠ dataName
  names : ∀ name ∈ u.names, name.Allowed ∧ FileSystem.isHidden name = false

instance (u : Publication) : Decidable u.Valid :=
  decidable_of_iff (u.stamp ≠ [] ∧ u.directory.Allowed ∧ u.directory ≠ dataName ∧
      ∀ name ∈ u.names, name.Allowed ∧ FileSystem.isHidden name = false)
    ⟨fun h => ⟨h.1, h.2.1, h.2.2.1, h.2.2.2⟩,
      fun h => ⟨h.stamp_ne_nil, h.directory, h.directory_ne, h.names⟩⟩

theorem isHidden_directory (u : Publication) : FileSystem.isHidden u.directory = true := rfl

theorem isHidden_dataName : FileSystem.isHidden dataName = true := by decide +kernel

theorem allowed_dataName : dataName.Allowed := by decide +kernel

theorem directory_ne_here (u : Publication) : u.directory ≠ Path.here := by
  intro h
  cases h

theorem Valid.directory_ne_up (h : u.Valid) : u.directory ≠ Path.up :=
  fun heq => h.stamp_ne_nil (List.append_right_eq_self.1 heq)

theorem get?_entriesOf : (u.entriesOf make).get? name = some e ↔
    ∃ n content, u.data.get? n = some content ∧ utf8 n = name ∧ make n content = e := by
  simp only [SortedMap.get?_eq_some_iff, entriesOf, List.mem_map, Prod.exists, Prod.mk.injEq]

theorem mem_names_of_get? {n content : String} (h : u.data.get? n = some content) :
    utf8 n ∈ u.names :=
  List.mem_map_of_mem (List.mem_map_of_mem (f := Prod.fst) (SortedMap.get?_eq_some_iff.1 h))

theorem get?_files {n content : String} (h : u.data.get? n = some content) :
    u.files.get? (utf8 n) = some (.file (utf8 content)) :=
  get?_entriesOf.2 ⟨n, content, h, rfl, rfl⟩

theorem get?_links {n content : String} (h : u.data.get? n = some content) :
    u.links.get? (utf8 n) = some (.link (dataPath (utf8 n))) :=
  get?_entriesOf.2 ⟨n, content, h, rfl, rfl⟩

/-- No link is hidden. -/
theorem Valid.get?_links_of_hidden (h : u.Valid) (hidden : FileSystem.isHidden name = true) :
    u.links.get? name = none := by
  refine Option.eq_none_iff_forall_ne_some.2 fun e he => ?_
  obtain ⟨n, content, hn, rfl, -⟩ := get?_entriesOf.1 he
  exact absurd hidden (by simp [(h.names _ (mem_names_of_get? hn)).2])

end Publication

/-! ## The mounted directory -/

namespace Path

variable {name : FileName}

/-- A name by itself is a path that leads to it. -/
theorem steps_of_name (h : name.Proper) : (Path.mk name).steps = [name] :=
  steps_join (p := ⟨[]⟩) h

theorem names_of_name (h : name.Proper) : (Path.mk name).names = [name] :=
  names_join (p := ⟨[]⟩) h

theorem isAbsolute_of_name (h : name.Proper) : (Path.mk name).isAbsolute = false :=
  isAbsolute_join (p := ⟨[]⟩) h

end Path

namespace FileSystem

open Publication

/-- The version is mounted in the directory: its files are in their own directory, to which
`..data` leads, and what is shown are the links to them. -/
structure Mounted (fs : FileSystem) (dir : Place) (u : Publication) : Prop where
  valid : u.Valid
  root : fs.entryAt dir = some .directory
  directory : fs.entryAt (dir ++ [u.directory]) = some .directory
  files : ∀ name e, u.files.get? name = some e →
    fs.entryAt (dir ++ [u.directory] ++ [name]) = some e
  data : fs.entryAt (dir ++ [dataName]) = some (.link ⟨u.directory⟩)
  shown : ∀ name, isHidden name = false → fs.entryAt (dir ++ [name]) = u.links.get? name

/-- The path leads to the directory; if there are names, it does so with two links to spare,
and it is short enough to be joined with each of them. -/
structure HasRoom (fs : FileSystem) (root : Path) (dir : Place) (names : List FileName) :
    Prop where
  locate : fs.locate root = .ok dir
  leads : names ≠ [] → fs.follow (maxLinks - 2) (fs.base root) root.steps = .ok (.found dir)
  fits : ∀ name ∈ names, (root.join name).bytes.length ≤ maxPathLength

variable {fs : FileSystem} {dir place : Place} {u : Publication} {root path : Path}
  {names : List FileName} {name : FileName} {n content : String} {left : Nat}

theorem checkPath_eq_ok_iff {p : Path} : checkPath p = .ok () ↔
    0 ∉ p.bytes ∧ p.bytes ≠ [] ∧ p.bytes.length ≤ maxPathLength := by
  rw [checkPath]
  split
  · simp_all
  split
  · simp_all [Path.isEmpty]
  split
  · simp_all
  · simp_all [Path.isEmpty]

theorem HasRoom.checkPath_join (h : fs.HasRoom root dir names) (hmem : name ∈ names)
    (hname : name.Allowed) : checkPath (root.join name) = .ok () := by
  obtain ⟨hcheck, -⟩ := locate_eq_ok_iff.1 h.locate
  obtain ⟨hnul, hne, -⟩ := checkPath_eq_ok_iff.1 hcheck
  refine checkPath_eq_ok_iff.2 ⟨?_, ?_, h.fits name hmem⟩
  · intro hzero
    rcases List.mem_append.1 hzero with hzero | hzero
    · rcases List.mem_append.1 hzero with hzero | hzero
      · exact hnul hzero
      · split at hzero
        · cases hzero
        · exact absurd (List.mem_singleton.1 hzero) (by decide)
    · exact hname.no_nul hzero
  · exact List.append_ne_nil_of_right_ne_nil _ hname.ne_nil

/-- What is hidden is passed over. -/
theorem visit_of_hidden {down : List Place → Path → List Path} {visited : List Place}
    (h : isHidden name = true) (path : Path) (e : Entry) :
    fs.visit down visited path (name, e) = [] := if_pos h

namespace Mounted

theorem file (h : fs.Mounted dir u) (hn : u.data.get? n = some content) :
    fs.entryAt (dir ++ [u.directory] ++ [utf8 n]) = some (.file (utf8 content)) :=
  h.files _ _ (get?_files hn)

/-- From the directory a name leads over two links to its file. -/
theorem leads (h : fs.Mounted dir u) (hn : u.data.get? n = some content) :
    fs.Leads (left + 2) dir [utf8 n] left (dir ++ [u.directory] ++ [utf8 n]) := by
  obtain ⟨hname, hshown⟩ := h.valid.names _ (mem_names_of_get? hn)
  have hlink := (h.shown _ hshown).trans (get?_links hn)
  have hhere := ne_here_of_shown hshown
  have hup := ne_up_of_shown hshown
  have hdata := allowed_dataName.toProper
  have hdirectory := h.valid.directory.toProper
  refine .jump ⟨h.root, hhere, hup, hname.length_le⟩ hlink ?_
  rw [dataPath, Path.isAbsolute_join hname.toProper, Path.steps_join hname.toProper,
    Path.isAbsolute_of_name hdata, Path.names_of_name hdata]
  refine .jump ⟨h.root, by decide +kernel, by decide +kernel, allowed_dataName.length_le⟩ h.data ?_
  rw [Path.isAbsolute_of_name hdirectory, Path.steps_of_name hdirectory]
  refine .enter ⟨h.root, u.directory_ne_here, h.valid.directory_ne_up,
    h.valid.directory.length_le⟩ h.directory nofun ?_
  exact .enter ⟨h.directory, hhere, hup, hname.length_le⟩ (h.file hn) nofun .done

/-- The path of a name leads to its file. -/
theorem locate_join (h : fs.Mounted dir u) (hroom : fs.HasRoom root dir u.names)
    (hn : u.data.get? n = some content) :
    fs.locate (root.join (utf8 n)) = .ok (dir ++ [u.directory] ++ [utf8 n]) := by
  have hmem := mem_names_of_get? hn
  obtain ⟨hname, -⟩ := h.valid.names _ hmem
  obtain ⟨left, hroot⟩ := follow_eq_found_iff.1 (hroom.leads (List.ne_nil_of_mem hmem))
  refine locate_eq_ok_iff.2 ⟨hroom.checkPath_join hmem hname, left, ?_⟩
  rw [base, Path.isAbsolute_join hname.toProper, Path.steps_join hname.toProper, ← base]
  exact (hroot.names_of_steps.spare 2).append (h.leads hn)

/-- What is shown in the directory are the links, in the order of the names. -/
theorem children_shown (h : fs.Mounted dir u) :
    (fs.children dir).filter (fun c => !isHidden c.1) = u.links.entries := by
  refine SortedMap.entries_eq_of_mem_iff ((fs.children_increasing dir).filter _)
    u.links.increasing fun ⟨name, e⟩ => ?_
  rw [List.mem_filter, mem_children, ← SortedMap.get?_eq_some_iff]
  cases hidden : isHidden name with
  | true => simp [h.valid.get?_links_of_hidden hidden]
  | false => simp [h.shown name hidden]

/-- The store lists the path of each name, once, in the order of the names. -/
theorem filesBelow_eq (h : fs.Mounted dir u) (hroom : fs.HasRoom root dir u.names) :
    fs.filesBelow root = u.names.map root.join := by
  obtain ⟨depth, hdepth⟩ : ∃ depth, fs.walkDepth = depth + 1 :=
    Nat.exists_eq_succ_of_ne_zero (Nat.mul_ne_zero (Nat.succ_ne_zero _) (Nat.succ_ne_zero _))
  have hvisit : ∀ c ∈ fs.children dir, fs.visit (fs.walk depth) [dir] root c =
      if !isHidden c.1 then [root.join c.1] else [] := by
    rintro ⟨name, e⟩ hc
    cases hshown : isHidden name with
    | true => exact visit_of_hidden hshown root e
    | false =>
      have hlink : u.links.get? name = some e :=
        (h.shown name hshown).symm.trans (mem_children.1 hc)
      obtain ⟨n, content, hn, rfl, -⟩ := get?_entriesOf.1 hlink
      exact visit_of_file hshown e (h.locate_join hroom hn) (h.file hn)
  calc fs.filesBelow root
      = (fs.children dir).flatMap (fs.visit (fs.walk depth) [dir] root) := by
        rw [filesBelow_of_directory hroom.locate h.root, hdepth, walk, List.headD_cons]
    _ = ((fs.children dir).filter fun c => !isHidden c.1).map fun c => root.join c.1 := by
        rw [List.flatMap_congr hvisit,
          flatMap_ite_singleton fun c : FileName × Entry => !isHidden c.1]
    _ = u.names.map root.join := by
        rw [h.children_shown, links, entriesOf, Publication.names, SortedMap.keys]
        simp only [List.map_map]
        rfl

/-- What is read are the texts that are mounted. -/
theorem readCertificates_eq (h : fs.Mounted dir u) (hroom : fs.HasRoom root dir u.names) :
    fs.readCertificates (fs.filesBelow root) = u.data := by
  have hread : ∀ entry ∈ u.data.entries,
      fs.readCertificate (root.join (utf8 entry.1)) = some entry := by
    rintro ⟨n, content⟩ hentry
    have hn := SortedMap.get?_eq_some_iff.2 hentry
    obtain ⟨hname, hshown⟩ := h.valid.names _ (mem_names_of_get? hn)
    have hcontent : fs.readText (root.join (utf8 n)) = .ok content := by
      rw [readText, read, h.locate_join hroom hn, ok_bind, h.file hn, ok_bind, decodeText,
        textOfBytes_utf8]
    refine readCertificate_eq_some_iff.2 ⟨?_, hcontent⟩
    rw [Path.fileName?_join hname.toProper (ne_here_of_shown hshown) (ne_up_of_shown hshown)]
    exact textOfBytes_utf8 n
  have hpaths : fs.filesBelow root = u.data.entries.map fun entry => root.join (utf8 entry.1) := by
    rw [h.filesBelow_eq hroom, Publication.names, SortedMap.keys, List.map_map, List.map_map]
    rfl
  calc fs.readCertificates (fs.filesBelow root)
      = SortedMap.ofList (u.data.entries.filterMap some) := by
        rw [readCertificates, hpaths, List.filterMap_map]
        exact congrArg SortedMap.ofList (List.filterMap_congr hread)
    _ = u.data := by rw [List.filterMap_some, SortedMap.ofList_entries]

end Mounted

end FileSystem

/-! ## The trust store -/

namespace TrustStore

variable {fs : FileSystem} {dir : Place} {u : Publication} {root : Path}

theorem files_of_mounted (h : fs.Mounted dir u) (hroom : fs.HasRoom root dir u.names) :
    (TrustStore.mk (some root)).files fs = u.names.map root.join := h.filesBelow_eq hroom

/-- A fresh cache loads the texts that are mounted. -/
theorem load_of_mounted (h : fs.Mounted dir u) (hroom : fs.HasRoom root dir u.names) :
    ((CertificateCache.ofStore ⟨some root⟩).load fs).1 = u.data :=
  (CertificateCache.load_fst_of_none rfl).trans (h.readCertificates_eq hroom)

/-- The names of what is listed are those of the texts. -/
theorem listedNames_of_mounted (h : fs.Mounted dir u) (hroom : fs.HasRoom root dir u.names) :
    (TrustStore.mk (some root)).listedNames fs = u.data.keys := by
  have hname : ∀ n ∈ u.data.keys,
      (root.join (utf8 n)).fileName?.bind textOfBytes = some n := by
    intro n hn
    obtain ⟨hname, hshown⟩ := h.valid.names _ (List.mem_map_of_mem hn)
    rw [Path.fileName?_join hname.toProper (FileSystem.ne_here_of_shown hshown)
      (FileSystem.ne_up_of_shown hshown)]
    exact textOfBytes_utf8 n
  calc (TrustStore.mk (some root)).listedNames fs
      = u.data.keys.filterMap some := by
        rw [listedNames, files_of_mounted h hroom, Publication.names, List.map_map,
          List.filterMap_map]
        exact List.filterMap_congr hname
    _ = u.data.keys := List.filterMap_some

/-- The git settings have one stanza for each name, in the order of the names. -/
theorem settings_of_mounted (h : fs.Mounted dir u) (hroom : fs.HasRoom root dir u.names) :
    ((VcsCertificateProvisioner.mk (.ofStore ⟨some root⟩)).hostConfigs fs).1 =
      GitConfig.render u.data.keys certificateDirectory := by
  have hcontains : ∀ n ∈ u.data.keys, u.data.contains n = true := by
    intro n hn
    obtain ⟨⟨n, content⟩, hentry, rfl⟩ := List.mem_map.1 hn
    exact Option.isSome_iff_exists.2 ⟨content, SortedMap.get?_eq_some_iff.2 hentry⟩
  have hsettings := VcsCertificateProvisioner.Site.settings_eq (.fresh fs ⟨some root⟩)
  calc ((VcsCertificateProvisioner.mk (.ofStore ⟨some root⟩)).hostConfigs fs).1
      = GitConfig.render (((TrustStore.mk (some root)).listedNames fs).filter fun n =>
          ((CertificateCache.ofStore ⟨some root⟩).load fs).1.contains n) certificateDirectory :=
        hsettings
    _ = GitConfig.render (u.data.keys.filter fun n => u.data.contains n) certificateDirectory := by
        rw [listedNames_of_mounted h hroom, load_of_mounted h hroom]
    _ = GitConfig.render u.data.keys certificateDirectory := by
        rw [List.filter_eq_self.2 hcontains]

end TrustStore

end WorkspaceTrust
