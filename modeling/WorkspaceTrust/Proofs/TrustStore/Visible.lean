import Mathlib.Data.List.Induction
import WorkspaceTrust.Proofs.TrustStore.Walk

/-!
# The files that a trust store shows

`Visible` says of a file below the root that it is shown, in terms of its
own path alone: its names, what its beginnings resolve to, and which of
them are links. The beginnings of a visible path are the passages that
lead to it (`exists_passage_of_visible`), and the other way round, so
that a path is visible exactly if the walk lists it (`visible_iff`).

`TrustStore.files_visible` puts together what the store lists: the
visible paths, each once and in the order of their components. As a path
is visible or not whatever else there is, nothing that is put into the
file system where nothing was takes another path from the list.
-/

namespace WorkspaceTrust

namespace FileSystem

variable {fs : FileSystem} {root : Path} {names front : List FileName} {name : FileName}
  {dir place : Place} {rest visited : List Place} {e : Entry}

/-- The names lead from the root to a file that is shown. None of them is hidden, all
beginnings of the path are directories, and none that is a link is one of the directories
before it. -/
structure Visible (fs : FileSystem) (root : Path) (names : List FileName) : Prop where
  ne_nil : names ≠ []
  proper : ∀ name ∈ names, name.Proper
  shown : ∀ name ∈ names, isHidden name = false
  directories : ∀ front, front <+: names → front ≠ names →
    fs.entry? (root.below front) = some .directory
  no_loop : ∀ front, front <+: names → fs.IsLink (root.below front) →
    fs.entry? (root.below front) = some .directory →
    ∀ before, before <+: front → before ≠ front →
      fs.locate (root.below before) ≠ fs.locate (root.below front)
  file : ∃ content, fs.entry? (root.below names) = some (.file content)

/-! ## Beginnings of a visible path -/

theorem Passage.isLink_iff (h : fs.Passage root names (dir :: rest)) (hname : name.Proper)
    (hfinds : fs.Finds dir (root.below names) name place) :
    fs.IsLink (root.below (names ++ [name])) ↔
      ∃ target, fs.entryAt (dir ++ [name]) = some (.link target) := by
  rw [Path.below_concat]
  exact isLink_join_iff hname (ne_here_of_shown hfinds.shown) (ne_up_of_shown hfinds.shown)
    h.located hfinds.located

/-- What can be resolved at the end of a passage is found there. -/
theorem Passage.finds (h : fs.Passage root names (dir :: rest)) (hname : name.Proper)
    (hshown : isHidden name = false) (hplace : fs.locate (root.below (names ++ [name])) = .ok place) :
    fs.Finds dir (root.below names) name place := by
  rw [Path.below_concat] at hplace
  obtain ⟨-, e, he, -⟩ := locate_join hname (ne_here_of_shown hshown) (ne_up_of_shown hshown)
    h.located hplace
  exact ⟨hshown, ⟨e, he⟩, hplace⟩

/-- All but the last of the names of a visible path are a passage. -/
theorem exists_passage_of_visible (h : fs.Visible root names) (hfront : front <+: names)
    (hne : front ≠ names) : ∃ dir rest, fs.Passage root front (dir :: rest) := by
  induction front using List.reverseRecOn with
  | nil =>
    obtain ⟨place, hroot, hdir⟩ := entry?_eq_some_iff.1 (h.directories [] hfront hne)
    exact ⟨place, [], .start hroot hdir⟩
  | append_singleton front name ih =>
    have hprefix : front <+: names := (List.prefix_append _ _).trans hfront
    have hmem : name ∈ names := hfront.subset (List.mem_append_right _ (List.mem_singleton_self _))
    have hlonger : front ≠ names := by
      rintro rfl
      exact absurd hfront.length_le (by simp)
    obtain ⟨dir, rest, hpassage⟩ := ih hprefix hlonger
    have hdirectory := h.directories _ hfront hne
    obtain ⟨place, hplace, hdir⟩ := entry?_eq_some_iff.1 hdirectory
    have hname := h.proper name hmem
    have hfinds := hpassage.finds hname (h.shown name hmem) hplace
    refine ⟨place, dir :: rest, hpassage.enter hname hfinds ⟨hdir, fun target htarget hvisited => ?_⟩⟩
    obtain ⟨before, hbefore, hsame⟩ := hpassage.mem_visited_iff.1 hvisited
    have hlink := (hpassage.isLink_iff hname hfinds).2 ⟨target, htarget⟩
    refine h.no_loop _ hfront hlink hdirectory before (hbefore.trans (List.prefix_append _ _)) ?_
      (hsame.trans hplace.symm)
    rintro rfl
    exact absurd hbefore.length_le (by simp)

/-- A link on a passage does not lead to a beginning of it. -/
theorem Passage.no_loop (h : fs.Passage root front visited) (hlink : fs.IsLink (root.below front))
    {before : List FileName} (hbefore : before <+: front) (hne : before ≠ front) :
    fs.locate (root.below before) ≠ fs.locate (root.below front) := by
  cases h with
  | start => exact absurd (List.prefix_nil.1 hbefore) hne
  | enter h hname hfinds hopens =>
    rcases List.prefix_concat_iff.1 hbefore with rfl | hbefore
    · exact absurd rfl hne
    obtain ⟨target, htarget⟩ := (h.isLink_iff hname hfinds).1 hlink
    intro hsame
    rw [Path.below_concat, hfinds.located] at hsame
    exact hopens.no_loop target htarget (h.mem_visited_iff.2 ⟨before, hbefore, hsame⟩)

/-- A path is visible if a file is found at the end of a passage. -/
theorem Lists.visible (h : fs.Lists root names name) : fs.Visible root (names ++ [name]) := by
  obtain ⟨hname, dir, rest, place, content, hpassage, hfinds, hcontent⟩ := h
  have hfile : fs.entry? (root.below (names ++ [name])) = some (.file content) := by
    rw [Path.below_concat]
    exact entry?_eq_some_iff.2 ⟨place, hfinds.located, hcontent⟩
  refine ⟨by simp, ?_, ?_, fun front hfront hne => ?_, fun front hfront hlink hdirectory => ?_,
    content, hfile⟩
  · exact List.forall_mem_append.2 ⟨fun n hn => (hpassage.shown n hn).1,
      List.forall_mem_singleton.2 hname⟩
  · exact List.forall_mem_append.2 ⟨fun n hn => (hpassage.shown n hn).2,
      List.forall_mem_singleton.2 hfinds.shown⟩
  · rcases List.prefix_concat_iff.1 hfront with rfl | hfront
    · exact absurd rfl hne
    obtain ⟨dir', rest', hbefore⟩ := hpassage.exists_of_prefix hfront
    exact entry?_eq_some_iff.2 ⟨dir', hbefore.located, hbefore.directory⟩
  · rcases List.prefix_concat_iff.1 hfront with rfl | hfront
    · rw [hfile] at hdirectory
      cases hdirectory
    obtain ⟨dir', rest', hbefore⟩ := hpassage.exists_of_prefix hfront
    exact fun before => hbefore.no_loop hlink

theorem visible_iff : fs.Visible root names ↔
    ∃ front name, fs.Lists root front name ∧ names = front ++ [name] := by
  constructor
  · intro h
    obtain ⟨front, name, rfl⟩ : ∃ front name, names = front ++ [name] :=
      ⟨_, _, (List.dropLast_concat_getLast h.ne_nil).symm⟩
    have hmem : name ∈ front ++ [name] := List.mem_append_right _ (List.mem_singleton_self _)
    obtain ⟨dir, rest, hpassage⟩ := exists_passage_of_visible h (List.prefix_append _ _) (by simp)
    obtain ⟨content, hfile⟩ := h.file
    obtain ⟨place, hplace, hcontent⟩ := entry?_eq_some_iff.1 hfile
    have hfinds := hpassage.finds (h.proper name hmem) (h.shown name hmem) hplace
    exact ⟨front, name,
      ⟨h.proper name hmem, dir, rest, place, content, hpassage, hfinds, hcontent⟩, rfl⟩
  · rintro ⟨front, name, hlists, rfl⟩
    exact hlists.visible

theorem Lists.put {q : Place} (hfree : fs.entryAt q = none) (h : fs.Lists root names name) :
    (fs.put q e).Lists root names name := by
  obtain ⟨hname, dir, rest, place, content, hpassage, hfinds, hcontent⟩ := h
  obtain ⟨e', he'⟩ := hfinds.entry
  exact ⟨hname, dir, rest, place, content, hpassage.put hfree,
    ⟨hfinds.shown, ⟨e', entryAt_put_of_some hfree he'⟩, locate_put hfree hfinds.located⟩,
    entryAt_put_of_some hfree hcontent⟩

theorem visible_put {q : Place} (hfree : fs.entryAt q = none) (h : fs.Visible root names) :
    (fs.put q e).Visible root names := by
  obtain ⟨front, name, hlists, rfl⟩ := visible_iff.1 h
  exact (hlists.put hfree).visible

/-! ## The root -/

theorem filesBelow_of_error {fault : Fault} (h : fs.locate root = .error fault) :
    fs.filesBelow root = [] := by
  rw [filesBelow, h]

theorem filesBelow_of_file {content : List UInt8}
    (h : fs.entry? root = some (.file content)) : fs.filesBelow root = [root] := by
  obtain ⟨place, hroot, hcontent⟩ := entry?_eq_some_iff.1 h
  simp only [filesBelow, hroot, hcontent]

theorem filesBelow_of_directory (hroot : fs.locate root = .ok place)
    (hdir : fs.entryAt place = some .directory) :
    fs.filesBelow root = fs.walk fs.walkDepth [place] root := by
  simp only [filesBelow, hroot, hdir]

/-- A root that is neither a file nor a directory has nothing below it. -/
theorem filesBelow_of_other (hfile : ∀ content, fs.entry? root ≠ some (.file content))
    (hdir : fs.entry? root ≠ some .directory) : fs.filesBelow root = [] := by
  cases hroot : fs.locate root with
  | error fault => exact filesBelow_of_error hroot
  | ok place =>
    have hentry : fs.entry? root = fs.entryAt place := by
      unfold entry?
      rw [hroot]
    rw [hentry] at hfile hdir
    cases he : fs.entryAt place with
    | none => simp only [filesBelow, hroot, he]
    | some e =>
      cases e with
      | file content => exact absurd he (hfile content)
      | directory => exact absurd he hdir
      | link _ | device => simp only [filesBelow, hroot, he]

theorem Visible.mem_filesBelow (h : fs.Visible root names) :
    root.below names ∈ fs.filesBelow root := by
  have hdir : fs.entry? root = some .directory :=
    h.directories [] List.nil_prefix h.ne_nil.symm
  obtain ⟨place, hroot, hdirectory⟩ := entry?_eq_some_iff.1 hdir
  obtain ⟨front, name, hlists, rfl⟩ := visible_iff.1 h
  rw [filesBelow_of_directory hroot hdirectory, Path.below_concat]
  exact hlists.mem_walk hroot

theorem mem_filesBelow_iff (hproper : fs.Proper)
    (hfile : ∀ content, fs.entry? root ≠ some (.file content)) {p : Path} :
    p ∈ fs.filesBelow root ↔ ∃ names, fs.Visible root names ∧ p = root.below names := by
  constructor
  · intro hp
    by_cases hdir : fs.entry? root = some .directory
    · obtain ⟨place, hroot, hdirectory⟩ := entry?_eq_some_iff.1 hdir
      rw [filesBelow_of_directory hroot hdirectory] at hp
      obtain ⟨front, name, hlists, rfl⟩ :=
        exists_lists_of_mem_walk hproper (.start hroot hdirectory) hp
      exact ⟨front ++ [name], hlists.visible, (Path.below_concat ..).symm⟩
    · rw [filesBelow_of_other hfile hdir] at hp
      exact absurd hp List.not_mem_nil
  · rintro ⟨names, hvisible, rfl⟩
    exact hvisible.mem_filesBelow

theorem filesBelow_increasing (hproper : fs.Proper) (root : Path) :
    (fs.filesBelow root).Pairwise fun p q =>
      KeyOrder.before p.components q.components = true := by
  by_cases hfile : ∃ content, fs.entry? root = some (.file content)
  · obtain ⟨content, hfile⟩ := hfile
    rw [filesBelow_of_file hfile]
    exact List.pairwise_singleton _ _
  by_cases hdir : fs.entry? root = some .directory
  · obtain ⟨place, hroot, hdirectory⟩ := entry?_eq_some_iff.1 hdir
    rw [filesBelow_of_directory hroot hdirectory]
    exact walk_increasing hproper
  · rw [filesBelow_of_other (fun content h => hfile ⟨content, h⟩) hdir]
    exact .nil

/-- What is put where nothing was takes no file from the list. -/
theorem filesBelow_subset_put (hproper : fs.Proper) (hfree : fs.entryAt place = none)
    (e : Entry) (root : Path) : fs.filesBelow root ⊆ (fs.put place e).filesBelow root := by
  intro p hp
  by_cases hfile : ∃ content, fs.entry? root = some (.file content)
  · obtain ⟨content, hfile⟩ := hfile
    obtain ⟨q, hroot, hcontent⟩ := entry?_eq_some_iff.1 hfile
    have hfile' : FileSystem.entry? (fs.put place e) root = some (.file content) :=
      entry?_eq_some_iff.2 ⟨q, locate_put hfree hroot, entryAt_put_of_some hfree hcontent⟩
    rw [filesBelow_of_file hfile] at hp
    rwa [filesBelow_of_file hfile']
  · obtain ⟨names, hvisible, rfl⟩ :=
      (mem_filesBelow_iff hproper fun content h => hfile ⟨content, h⟩).1 hp
    exact (visible_put hfree hvisible).mem_filesBelow

end FileSystem

/-! ## The trust store -/

namespace TrustStore

/-- What a trust store lists: nothing if its root cannot be resolved, the root if this is a
file, and otherwise just the visible files below it, each once, in the order of their
components. Nothing that is in the file system besides takes any of them away. -/
theorem files_visible {fs : FileSystem} (hproper : fs.Proper) (root : Path) :
    let files := (TrustStore.mk (some root)).files
    (∀ fault, fs.locate root = .error fault → files fs = []) ∧
    (∀ content, fs.entry? root = some (.file content) → files fs = [root]) ∧
    ((∀ content, fs.entry? root ≠ some (.file content)) → ∀ p,
      p ∈ files fs ↔ ∃ names, fs.Visible root names ∧ p = root.below names) ∧
    (files fs).Nodup ∧
    ((files fs).Pairwise fun p q => KeyOrder.before p.components q.components = true) ∧
    ∀ place e, fs.entryAt place = none → files fs ⊆ files (fs.put place e) := by
  intro files
  have hincreasing := fs.filesBelow_increasing hproper root
  refine ⟨fun _ h => FileSystem.filesBelow_of_error h, fun _ h => FileSystem.filesBelow_of_file h,
    fun hfile _ => FileSystem.mem_filesBelow_iff hproper hfile, ?_, hincreasing,
    fun place e hfree => FileSystem.filesBelow_subset_put hproper hfree e root⟩
  refine hincreasing.imp fun {p q} hbefore => ?_
  rintro rfl
  exact KeyOrder.ne_of_before hbefore rfl

/-- A trust store with a hidden file, a link to nowhere, a link into itself and a link to
another directory. -/
def linked : FileSystem where
  entries := .ofList [([utf8 "other"], .directory),
    ([utf8 "other", utf8 "f"], .file []),
    ([utf8 "store"], .directory),
    ([utf8 "store", utf8 ".keep"], .file []),
    ([utf8 "store", utf8 "a"], .file []),
    ([utf8 "store", utf8 "b"], .link (.ofString "gone")),
    ([utf8 "store", utf8 "c"], .directory),
    ([utf8 "store", utf8 "c", utf8 "d"], .file []),
    ([utf8 "store", utf8 "c", utf8 "up"], .link (.ofString "..")),
    ([utf8 "store", utf8 "e"], .link (.ofString "/other"))]
  workingDirectory := []

theorem files_visible_linked :
    let root := Path.ofString "store"
    let files := (TrustStore.mk (some root)).files linked
    files = [.ofString "store/a", .ofString "store/c/d", .ofString "store/e/f"] ∧
      ∃ names, linked.Visible root names ∧ Path.ofString "store/e/f" = root.below names := by
  intro root files
  have hfiles : files = [.ofString "store/a", .ofString "store/c/d", .ofString "store/e/f"] := by
    decide +kernel
  have hdir : linked.entry? root = some .directory := by decide +kernel
  have hfile : ∀ content, linked.entry? root ≠ some (.file content) := by
    intro content
    rw [hdir]
    exact nofun
  have hproper : linked.Proper := by decide +kernel
  obtain ⟨-, -, hvisible, -, -, -⟩ := files_visible hproper root
  have hmem : Path.ofString "store/e/f" ∈ files := by simp [hfiles]
  exact ⟨hfiles, (hvisible hfile _).1 hmem⟩

end TrustStore

end WorkspaceTrust
