import WorkspaceTrust.Proofs.TrustStore.Mounted

/-!
# Publishing one version after the other

When a map of texts changes, its new version gets a directory with files
of its own, `..data` is made to lead there, and the links of the names are
made anew (`publish`). What is hidden stays, the files of earlier versions
among it.

Where an entry is after this is known for the three kinds of places there
are in a mounted directory: the directory (`entryAt_publish`), its entries
(`entryAt_publish_concat`), and what is directly below those
(`entryAt_publish_below`). Hence a directory in which a version is
published has it mounted, whatever was there before (`mounted_publish`),
and what an earlier version has left is still there (`Leftover.publish`).
Both are carried through any number of versions (`mounted_publishAll`,
`leftover_publishAll`), so that a store shows the last one and nothing
else (`TrustStore.shows_last_publication`).
-/

namespace WorkspaceTrust

namespace FileSystem

open Publication

variable {fs : FileSystem} {dir q : Place} {u v w : Publication} {name d : FileName} {e : Entry}
  {m : SortedMap FileName Entry}

/-! ## Changing the entries of a directory -/

/-- The place is that of an entry of the directory that is shown. -/
def isShownIn (dir place : Place) : Bool :=
  match place.getLast? with
  | some name => place.dropLast = dir && !isHidden name
  | none => false

/-- Takes what is shown out of a directory. -/
def clear (dir : Place) (fs : FileSystem) : FileSystem :=
  { fs with entries := fs.entries.filter fun place _ => !isShownIn dir place }

/-- Puts entries into a directory. -/
def fill (dir : Place) (m : SortedMap FileName Entry) (fs : FileSystem) : FileSystem :=
  m.entries.foldr (fun (name, e) fs => fs.put (dir ++ [name]) e) fs

theorem isShownIn_concat (dir : Place) (name : FileName) :
    isShownIn dir (dir ++ [name]) = !isHidden name := by
  simp [isShownIn]

theorem isShownIn_of_ne (h : ∀ name, q ≠ dir ++ [name]) : isShownIn dir q = false := by
  rw [isShownIn]
  split
  · next name hlast =>
    obtain ⟨front, rfl⟩ := List.getLast?_eq_some_iff.1 hlast
    have hne : front ≠ dir := fun heq => h name (heq ▸ rfl)
    simp [hne]
  · rfl

theorem entryAt_clear (dir q : Place) (fs : FileSystem) :
    (fs.clear dir).entryAt q = if isShownIn dir q then none else fs.entryAt q := by
  cases q with
  | nil => rfl
  | cons name q =>
    show (fs.entries.filter _).get? (name :: q) = _
    rw [SortedMap.get?_filter]
    cases isShownIn dir (name :: q) <;> cases hget : fs.entries.get? (name :: q) <;>
      simp [entryAt, hget]

theorem entryAt_fill (dir : Place) (m : SortedMap FileName Entry) (name : FileName)
    (fs : FileSystem) :
    (fs.fill dir m).entryAt (dir ++ [name]) = (m.get? name).or (fs.entryAt (dir ++ [name])) := by
  rw [fill, SortedMap.get?]
  induction m.entries with
  | nil => rfl
  | cons c l ih =>
    obtain ⟨n, e⟩ := c
    rw [List.foldr_cons, entryAt_put, ih, SortedMap.lookup]
    by_cases hn : n = name <;> simp [hn]

theorem entryAt_fill_of_ne (h : ∀ name, q ≠ dir ++ [name]) :
    (fs.fill dir m).entryAt q = fs.entryAt q := by
  rw [fill]
  induction m.entries with
  | nil => rfl
  | cons c l ih =>
    rw [List.foldr_cons, entryAt_put, ih, if_neg]
    exact fun hand => h c.1 hand.2.symm

/-! ## Publishing -/

/-- Mounts a version in a directory, in place of the one that is mounted there. -/
def publish (dir : Place) (u : Publication) (fs : FileSystem) : FileSystem :=
  ((((fs.clear dir).put (dir ++ [u.directory]) .directory).fill (dir ++ [u.directory]) u.files).put
    (dir ++ [dataName]) (.link ⟨u.directory⟩)).fill dir u.links

theorem ne_concat (dir : Place) (name : FileName) : dir ≠ dir ++ [name] := by
  simp

theorem concat_ne_below (dir : Place) (name d n : FileName) :
    dir ++ [name] ≠ dir ++ [d] ++ [n] := by
  simp

theorem entryAt_publish (dir : Place) (u : Publication) (fs : FileSystem) :
    (fs.publish dir u).entryAt dir = fs.entryAt dir := by
  have hbelow : ∀ n, dir ≠ dir ++ [u.directory] ++ [n] := by simp
  rw [publish, entryAt_fill_of_ne (ne_concat dir), entryAt_put, if_neg (by simp),
    entryAt_fill_of_ne hbelow, entryAt_put, if_neg (by simp), entryAt_clear,
    isShownIn_of_ne (ne_concat dir)]
  rfl

/-- The links, the directory of the version and `..data` are there, and of all else what is
hidden. -/
theorem entryAt_publish_concat (dir : Place) (u : Publication) (name : FileName) (fs : FileSystem) :
    (fs.publish dir u).entryAt (dir ++ [name]) = (u.links.get? name).or
      (if dataName = name then some (.link ⟨u.directory⟩)
        else if u.directory = name then some .directory
        else if isHidden name then fs.entryAt (dir ++ [name]) else none) := by
  rw [publish, entryAt_fill, entryAt_put, entryAt_fill_of_ne (concat_ne_below dir name _),
    entryAt_put, entryAt_clear, isShownIn_concat]
  cases isHidden name <;> simp

theorem entryAt_publish_below (dir : Place) (u : Publication) (d name : FileName)
    (fs : FileSystem) :
    (fs.publish dir u).entryAt (dir ++ [d] ++ [name]) =
      if u.directory = d then (u.files.get? name).or (fs.entryAt (dir ++ [d] ++ [name]))
      else fs.entryAt (dir ++ [d] ++ [name]) := by
  have hbelow : ∀ n, dir ++ [d] ++ [name] ≠ dir ++ [n] :=
    fun n => (concat_ne_below dir n d name).symm
  have hclear : ((fs.clear dir).put (dir ++ [u.directory]) .directory).entryAt
      (dir ++ [d] ++ [name]) = fs.entryAt (dir ++ [d] ++ [name]) := by
    rw [entryAt_put, if_neg (by simp), entryAt_clear, isShownIn_of_ne hbelow]
    rfl
  rw [publish, entryAt_fill_of_ne hbelow, entryAt_put, if_neg (by simp)]
  by_cases hd : u.directory = d
  · subst hd
    rw [entryAt_fill, hclear, if_pos rfl]
  · have hother : ∀ n, dir ++ [d] ++ [name] ≠ dir ++ [u.directory] ++ [n] := by
      intro n heq
      have hfront : dir ++ [d] = dir ++ [u.directory] := List.append_inj_left' heq rfl
      exact hd (List.singleton_inj.1 (List.append_cancel_left hfront)).symm
    rw [entryAt_fill_of_ne hother, hclear, if_neg hd]

/-- What is published is mounted. -/
theorem mounted_publish (hroot : fs.entryAt dir = some .directory) (hvalid : u.Valid) :
    (fs.publish dir u).Mounted dir u where
  valid := hvalid
  root := (entryAt_publish dir u fs).trans hroot
  directory := by
    rw [entryAt_publish_concat, hvalid.get?_links_of_hidden u.isHidden_directory, Option.none_or,
      if_neg hvalid.directory_ne.symm, if_pos rfl]
  files := by
    intro name e he
    rw [entryAt_publish_below, if_pos rfl, he, Option.some_or]
  data := by
    rw [entryAt_publish_concat, hvalid.get?_links_of_hidden isHidden_dataName, Option.none_or,
      if_pos rfl]
  shown := by
    intro name hshown
    have hdata : dataName ≠ name := by
      rintro rfl
      simp [isHidden_dataName] at hshown
    have hdirectory : u.directory ≠ name := by
      rintro rfl
      simp [isHidden_directory] at hshown
    rw [entryAt_publish_concat, if_neg hdata, if_neg hdirectory, hshown]
    exact Option.or_none

/-! ## What versions leave -/

/-- The directory of a version is there, with files of its names. -/
structure Leftover (fs : FileSystem) (dir : Place) (w : Publication) : Prop where
  valid : w.Valid
  directory : fs.entryAt (dir ++ [w.directory]) = some .directory
  files : ∀ name ∈ w.names, ∃ bytes,
    fs.entryAt (dir ++ [w.directory] ++ [name]) = some (.file bytes)

theorem Mounted.leftover (h : fs.Mounted dir u) : fs.Leftover dir u := by
  refine ⟨h.valid, h.directory, fun name hname => ?_⟩
  obtain ⟨n, hn, rfl⟩ := List.mem_map.1 hname
  obtain ⟨⟨n, content⟩, hentry, rfl⟩ := List.mem_map.1 hn
  exact ⟨utf8 content, h.file (SortedMap.get?_eq_some_iff.2 hentry)⟩

/-- What a version has left stays when another one is published. -/
theorem Leftover.publish (h : fs.Leftover dir w) (hvalid : v.Valid) :
    (fs.publish dir v).Leftover dir w := by
  refine ⟨h.valid, ?_, fun name hname => ?_⟩
  · rw [entryAt_publish_concat, hvalid.get?_links_of_hidden w.isHidden_directory, Option.none_or,
      if_neg h.valid.directory_ne.symm, w.isHidden_directory, if_pos rfl, h.directory, ite_self]
  · obtain ⟨bytes, hbytes⟩ := h.files name hname
    rw [entryAt_publish_below, hbytes]
    split
    · cases hfile : v.files.get? name with
      | none => exact ⟨bytes, rfl⟩
      | some e =>
        obtain ⟨n, content, -, -, rfl⟩ := get?_entriesOf.1 hfile
        exact ⟨utf8 content, rfl⟩
    · exact ⟨bytes, rfl⟩

/-! ## One version after the other -/

/-- Publishes some versions in their order. -/
def publishAll (dir : Place) : List Publication → FileSystem → FileSystem
  | [], fs => fs
  | u :: updates, fs => publishAll dir updates (fs.publish dir u)

variable {updates : List Publication}

/-- However many versions are published, the last one is mounted. -/
theorem mounted_publishAll : ∀ {fs : FileSystem} {u : Publication}, fs.Mounted dir u →
    (∀ w ∈ updates, w.Valid) → (fs.publishAll dir updates).Mounted dir (updates.getLastD u) := by
  induction updates with
  | nil => exact fun h _ => h
  | cons w updates ih =>
    intro fs u h hvalid
    obtain ⟨hw, hvalid⟩ := List.forall_mem_cons.1 hvalid
    rw [publishAll, List.getLastD_cons]
    exact ih (mounted_publish h.root hw) hvalid

theorem Leftover.publishAll : ∀ {fs : FileSystem}, fs.Leftover dir w →
    (∀ v ∈ updates, v.Valid) → (fs.publishAll dir updates).Leftover dir w := by
  induction updates with
  | nil => exact fun h _ => h
  | cons v updates ih =>
    intro fs h hvalid
    obtain ⟨hv, hvalid⟩ := List.forall_mem_cons.1 hvalid
    exact ih (h.publish hv) hvalid

/-- All versions have left their files. -/
theorem leftover_publishAll : ∀ {fs : FileSystem} {u : Publication}, fs.Mounted dir u →
    (∀ w ∈ updates, w.Valid) →
      ∀ w ∈ u :: updates, (fs.publishAll dir updates).Leftover dir w := by
  induction updates with
  | nil =>
    intro fs u h _ w hw
    obtain rfl := List.mem_singleton.1 hw
    exact h.leftover
  | cons v updates ih =>
    intro fs u h hvalid
    obtain ⟨hv, hlater⟩ := List.forall_mem_cons.1 hvalid
    have hthis := h.leftover.publishAll hvalid
    exact List.forall_mem_cons.2 ⟨hthis, ih (mounted_publish h.root hv) hlater⟩

end FileSystem

namespace TrustStore

/-- What a trust store shows of a mounted directory in which versions are published one after
the other: although all of them have left their files there, the store lists the path of each
name of the last version, once and in the order of the bytes, a fresh cache loads its texts,
and the git settings have one stanza for each name in that order. The root must have room for
the two links of each name. -/
theorem shows_last_publication {fs : FileSystem} {dir : Place} {u : Publication}
    (h : fs.Mounted dir u) {updates : List Publication} (hvalid : ∀ w ∈ updates, w.Valid) :
    let now := fs.publishAll dir updates
    let last := updates.getLastD u
    (∀ w ∈ u :: updates, now.Leftover dir w) ∧
    ∀ root, now.HasRoom root dir last.names →
      let store := TrustStore.ofRoot (some root)
      store.files now = last.data.keys.map (fun n => root.join (utf8 n)) ∧
      ((CertificateCache.ofStore store).load now).1 = last.data ∧
      ((VcsCertificateProvisioner.ofRoot (some root)).hostConfigs now).1 =
        GitConfig.render last.data.keys certificateDirectory := by
  intro now last
  have hlast : now.Mounted dir last := FileSystem.mounted_publishAll h hvalid
  refine ⟨FileSystem.leftover_publishAll h hvalid, fun root hroom => ?_⟩
  have hstore : TrustStore.ofRoot (some root) = ⟨some root⟩ := by
    obtain ⟨hcheck, -⟩ := FileSystem.locate_eq_ok_iff.1 hroom.locate
    obtain ⟨-, hne, -⟩ := FileSystem.checkPath_eq_ok_iff.1 hcheck
    simp [ofRoot, Path.isEmpty, hne]
  rw [VcsCertificateProvisioner.ofRoot, hstore]
  refine ⟨?_, load_of_mounted hlast hroom, settings_of_mounted hlast hroom⟩
  rw [files_of_mounted hlast hroom, Publication.names, List.map_map]
  rfl

/-- A version with one certificate, and one with others. -/
def firstVersion : Publication := ⟨utf8 "2024", .ofList [("a", "text")]⟩
def secondVersion : Publication := ⟨utf8 "2025", .ofList [("c", "text"), ("b", "other")]⟩

/-- An empty directory that is also reached over a chain of 39 links, from `A` to `g`. -/
def chained : FileSystem where
  entries := .ofList (([utf8 "certs"], .directory) :: ([utf8 "g"], .link (.ofString "certs")) ::
    (List.range 38).map fun i => ([[65 + i.toUInt8]], .link ⟨[66 + i.toUInt8]⟩))
  workingDirectory := []

/-- The directory with the first version. -/
def mountedFirst : FileSystem := chained.publish [utf8 "certs"] firstVersion

theorem mounted_mountedFirst : mountedFirst.Mounted [utf8 "certs"] firstVersion :=
  FileSystem.mounted_publish (by decide +kernel) (by decide +kernel)

theorem shows_last_publication_second :
    let now := mountedFirst.publish [utf8 "certs"] secondVersion
    let root := Path.ofString "certs"
    let store := TrustStore.ofRoot (some root)
    now.Leftover [utf8 "certs"] firstVersion ∧
      store.files now = [.ofString "certs/b", .ofString "certs/c"] ∧
      ((CertificateCache.ofStore store).load now).1 = secondVersion.data ∧
      ((VcsCertificateProvisioner.ofRoot (some root)).hostConfigs now).1 =
        "[http \"https://b*\"]\n\tsslCAInfo = /etc/che/git/cert/b\n" ++
        "[http \"https://c*\"]\n\tsslCAInfo = /etc/che/git/cert/c\n" := by
  intro now root store
  have hvalid : ∀ w ∈ [secondVersion], w.Valid := by decide +kernel
  obtain ⟨hleft, hshows⟩ := shows_last_publication mounted_mountedFirst hvalid
  have hroom : now.HasRoom root [utf8 "certs"] secondVersion.names :=
    ⟨by decide +kernel, by decide +kernel, by decide +kernel⟩
  obtain ⟨hfiles, hload, hsettings⟩ := hshows root hroom
  exact ⟨hleft firstVersion (List.mem_cons_self ..), hfiles.trans (by decide +kernel), hload,
    hsettings.trans (by decide +kernel)⟩

/-- Without room for the links or for the names, nothing is listed of what is mounted: over
39 links to the directory, or where the path itself is as long as it can be. -/
theorem shows_nothing_without_room :
    let dir := [utf8 "certs"]
    let files root := (TrustStore.ofRoot (some root)).files mountedFirst
    let linked := Path.ofString "A"
    let long : Path := ⟨utf8 "certs" ++ List.replicate 4090 Path.slash⟩
    mountedFirst.Mounted dir firstVersion ∧ firstVersion.data.keys = ["a"] ∧
      mountedFirst.locate linked = .ok dir ∧ files linked = [] ∧
      mountedFirst.locate long = .ok dir ∧ files long = [] := by
  intro dir files linked long
  exact ⟨mounted_mountedFirst, by decide +kernel, by decide +kernel, by decide +kernel,
    by decide +kernel, by decide +kernel⟩

end TrustStore

end WorkspaceTrust
