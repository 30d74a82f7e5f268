import Mathlib.Data.Finset.Card
import Mathlib.Data.Finset.Insert
import Mathlib.Data.Finset.Lattice.Fold
import Mathlib.Order.Lattice.Nat
import Mathlib.Tactic.Ring
import WorkspaceTrust.TrustStore
import WorkspaceTrust.Proofs.FileSystem.Resolution

/-!
# Ways into a trust store

A `Passage` is a way from the root of a trust store through directories,
by the names on it and the places that it has come through. It `Finds`
the entries of the directory where it is, and it `Opens` those that are
directories, unless a link leads back to where it has been.

What becomes less with every directory that is entered bounds the length
of passages (`Passage.length_add_le`). A link that is opened leads to a
place that has not been visited, and a name that is no link leads to a
place below. So with every name there is less that `remains`: places not
yet visited, and for the same visited places entries below the current
one. Hence no passage is longer than the walk is deep
(`Passage.length_lt`). In the same way the directories that are not yet
open, and the levels of the tree below the current one, bound what is
left of it (`Passage.length_lt_of_tree`).
-/

namespace WorkspaceTrust.FileSystem

variable {fs : FileSystem} {root path p : Path} {names : List FileName} {name : FileName}
  {dir place : Place} {visited : List Place} {e : Entry}

theorem entry?_eq_some_iff : fs.entry? p = some e ↔
    ∃ place, fs.locate p = .ok place ∧ fs.entryAt place = some e := by
  unfold entry?
  cases fs.locate p with
  | error fault => simp
  | ok place => simp

theorem ne_here_of_shown (h : isHidden name = false) : name ≠ Path.here := by
  rintro rfl
  cases h

theorem ne_up_of_shown (h : isHidden name = false) : name ≠ Path.up := by
  rintro rfl
  cases h

/-! ## Passages -/

/-- In the directory at this place and path there is an entry of this name that is shown,
and it is resolved. -/
structure Finds (fs : FileSystem) (dir : Place) (path : Path) (name : FileName)
    (place : Place) : Prop where
  shown : isHidden name = false
  entry : ∃ e, fs.entryAt (dir ++ [name]) = some e
  located : fs.locate (path.join name) = .ok place

/-- What is found under the name is a directory, and not by way of a link to a directory
that is being visited. -/
structure Opens (fs : FileSystem) (dir : Place) (visited : List Place) (name : FileName)
    (place : Place) : Prop where
  directory : fs.entryAt place = some .directory
  no_loop : ∀ target, fs.entryAt (dir ++ [name]) = some (.link target) → place ∉ visited

/-- A way through directories, by its names and by the places on it, the last first. -/
inductive Passage (fs : FileSystem) (root : Path) : List FileName → List Place → Prop
  | start {place : Place} (hroot : fs.locate root = .ok place)
      (hdir : fs.entryAt place = some .directory) : Passage fs root [] [place]
  | enter {names : List FileName} {dir : Place} {rest : List Place} {name : FileName}
      {place : Place} (h : Passage fs root names (dir :: rest)) (hname : name.Proper)
      (hfinds : fs.Finds dir (root.below names) name place)
      (hopens : fs.Opens dir (dir :: rest) name place) :
      Passage fs root (names ++ [name]) (place :: dir :: rest)

namespace Passage

variable {rest : List Place}

theorem exists_cons (h : fs.Passage root names visited) : ∃ dir rest, visited = dir :: rest := by
  cases h with
  | start _ _ | enter _ _ _ _ => exact ⟨_, _, rfl⟩

theorem located (h : fs.Passage root names (dir :: rest)) :
    fs.locate (root.below names) = .ok dir := by
  cases h with
  | start hroot => exact hroot
  | enter _ _ hfinds => exact (Path.below_concat ..).symm ▸ hfinds.located

theorem directory (h : fs.Passage root names (dir :: rest)) :
    fs.entryAt dir = some .directory := by
  cases h with
  | start _ hdir => exact hdir
  | enter _ _ _ hopens => exact hopens.directory

theorem shown (h : fs.Passage root names visited) :
    ∀ name ∈ names, name.Proper ∧ isHidden name = false := by
  induction h with
  | start => exact fun _ hmem => absurd hmem List.not_mem_nil
  | enter _ hname hfinds _ ih =>
    intro n hn
    rcases List.mem_append.1 hn with hn | hn
    · exact ih n hn
    · obtain rfl := List.mem_singleton.1 hn
      exact ⟨hname, hfinds.shown⟩

/-- There is a passage to wherever a passage comes through. -/
theorem exists_of_prefix (h : fs.Passage root names visited) :
    ∀ {front : List FileName}, front <+: names →
      ∃ dir rest, fs.Passage root front (dir :: rest) := by
  induction h with
  | start hroot hdir =>
    intro front hfront
    obtain rfl := List.prefix_nil.1 hfront
    exact ⟨_, _, .start hroot hdir⟩
  | enter h hname hfinds hopens ih =>
    intro front hfront
    rcases List.prefix_concat_iff.1 hfront with rfl | hfront
    · exact ⟨_, _, h.enter hname hfinds hopens⟩
    · exact ih hfront

/-- The places of a passage are those of its beginnings. -/
theorem mem_visited_iff (h : fs.Passage root names visited) {q : Place} :
    q ∈ visited ↔ ∃ front, front <+: names ∧ fs.locate (root.below front) = .ok q := by
  induction h with
  | @start place hroot _ =>
    simp only [List.mem_singleton, List.prefix_nil, exists_eq_left, Path.below_nil, hroot,
      Except.ok.injEq, eq_comm]
  | @enter names dir rest name place h hname hfinds hopens ih =>
    have hlocated := (h.enter hname hfinds hopens).located
    simp only [List.prefix_concat_iff, or_and_right, exists_or, exists_eq_left, hlocated,
      Except.ok.injEq, ← ih, List.mem_cons (a := q) (b := place), eq_comm (a := q)]

/-- What is found in the directory at the end of a passage is there, unless it is a link. -/
theorem place_eq (h : fs.Passage root names (dir :: rest)) (hname : name.Proper)
    (hfinds : fs.Finds dir (root.below names) name place)
    (hlink : ∀ target, fs.entryAt (dir ++ [name]) ≠ some (.link target)) :
    place = dir ++ [name] := by
  obtain ⟨-, e, he, hplace⟩ := locate_join hname (ne_here_of_shown hfinds.shown)
    (ne_up_of_shown hfinds.shown) h.located hfinds.located
  exact hplace fun target heq => hlink target (heq ▸ he)

/-- A passage stays one when something is put where nothing was. -/
theorem put {q : Place} (hfree : fs.entryAt q = none) (h : fs.Passage root names visited) :
    (fs.put q e).Passage root names visited := by
  induction h with
  | start hroot hdir => exact .start (locate_put hfree hroot) (entryAt_put_of_some hfree hdir)
  | enter _ hname hfinds hopens ih =>
    obtain ⟨e', he'⟩ := hfinds.entry
    have he := entryAt_put_of_some (e := e) hfree he'
    refine ih.enter hname ⟨hfinds.shown, ⟨e', he⟩, locate_put hfree hfinds.located⟩
      ⟨entryAt_put_of_some hfree hopens.directory, fun target htarget => ?_⟩
    rw [he] at htarget
    exact hopens.no_loop target (he'.trans htarget)

end Passage

/-! ## How long a passage can be -/

/-- Where something may be. -/
def places (fs : FileSystem) : Finset Place := insert [] fs.entries.keys.toFinset

theorem card_places_le (fs : FileSystem) : fs.places.card ≤ fs.entries.size + 1 := by
  have hkeys : fs.entries.keys.toFinset.card ≤ fs.entries.size :=
    (List.toFinset_card_le _).trans (Nat.le_of_eq (List.length_map _))
  exact (Finset.card_insert_le _ _).trans (Nat.succ_le_succ hkeys)

theorem mem_places (h : fs.entryAt place = some e) : place ∈ fs.places := by
  cases place with
  | nil => exact Finset.mem_insert_self _ _
  | cons name place =>
    have hmem : (name :: place, e) ∈ fs.entries.entries := SortedMap.get?_eq_some_iff.1 h
    exact Finset.mem_insert_of_mem (List.mem_toFinset.2 (List.mem_map.2 ⟨_, hmem, rfl⟩))

def unvisited (fs : FileSystem) (visited : List Place) : Finset Place :=
  fs.places.filter fun q => q ∉ visited

def placesBelow (fs : FileSystem) (dir : Place) : Finset Place :=
  fs.places.filter fun q => dir <+: q ∧ q ≠ dir

/-- What a passage through these places still has before it, at most. -/
def remains (fs : FileSystem) (dir : Place) (rest : List Place) : Nat :=
  (fs.unvisited (dir :: rest)).card * (fs.entries.size + 2) + (fs.placesBelow dir).card

theorem card_placesBelow_le (fs : FileSystem) (dir : Place) :
    (fs.placesBelow dir).card ≤ fs.entries.size + 1 :=
  (Finset.card_filter_le _ _).trans fs.card_places_le

/-- Of some places no more are left when one more has been visited. -/
theorem card_filter_cons_le (places : Finset Place) (place : Place) (visited : List Place) :
    (places.filter fun q => q ∉ place :: visited).card ≤
      (places.filter fun q => q ∉ visited).card :=
  Finset.card_le_card fun q hq => by
    obtain ⟨hq, hnot⟩ := Finset.mem_filter.1 hq
    exact Finset.mem_filter.2 ⟨hq, fun hmem => hnot (List.mem_cons_of_mem _ hmem)⟩

/-- A new place is one less to be visited. -/
theorem card_filter_cons_lt {places : Finset Place} (hplace : place ∈ places)
    (hnew : place ∉ visited) : (places.filter fun q => q ∉ place :: visited).card <
      (places.filter fun q => q ∉ visited).card := by
  refine Finset.card_lt_card ⟨fun q hq => ?_, fun hsub => ?_⟩
  · obtain ⟨hq, hnot⟩ := Finset.mem_filter.1 hq
    exact Finset.mem_filter.2 ⟨hq, fun hmem => hnot (List.mem_cons_of_mem _ hmem)⟩
  · have hmem := hsub (Finset.mem_filter.2 ⟨hplace, hnew⟩)
    exact (Finset.mem_filter.1 hmem).2 (List.mem_cons_self ..)

/-- There is less below an entry of a directory than below the directory. -/
theorem card_placesBelow_concat_lt (he : fs.entryAt (dir ++ [name]) = some e) :
    (fs.placesBelow (dir ++ [name])).card < (fs.placesBelow dir).card := by
  refine Finset.card_lt_card ⟨fun q hq => ?_, fun hsub => ?_⟩
  · obtain ⟨hq, hbelow, -⟩ := Finset.mem_filter.1 hq
    refine Finset.mem_filter.2 ⟨hq, (List.prefix_append _ _).trans hbelow, ?_⟩
    rintro rfl
    exact absurd hbelow.length_le (by simp)
  · have hmem := hsub (Finset.mem_filter.2
      ⟨mem_places he, List.prefix_append _ _, by simp⟩)
    exact (Finset.mem_filter.1 hmem).2.2 rfl

namespace Passage

variable {rest : List Place}

/-- If something becomes less with every directory that is entered, the names of a passage
with what is left of it are no more than it was at the root. -/
theorem length_add_le {left : Place → List Place → Nat} {bound : Nat}
    (hstart : ∀ place, fs.entryAt place = some .directory → left place [] ≤ bound)
    (hstep : ∀ {names dir rest name place}, fs.Passage root names (dir :: rest) → name.Proper →
      fs.Finds dir (root.below names) name place → fs.Opens dir (dir :: rest) name place →
      left place (dir :: rest) < left dir rest)
    (h : fs.Passage root names (dir :: rest)) : names.length + left dir rest ≤ bound := by
  generalize hvisited : dir :: rest = visited at h
  induction h generalizing dir rest with
  | start _ hdir =>
    cases hvisited
    simpa using hstart _ hdir
  | enter h hname hfinds hopens ih =>
    cases hvisited
    have hlt := hstep h hname hfinds hopens
    have hle := ih rfl
    rw [List.length_append, List.length_singleton]
    omega

/-- With every directory that is entered less remains. -/
theorem remains_lt (h : fs.Passage root names (dir :: rest)) (hname : name.Proper)
    (hfinds : fs.Finds dir (root.below names) name place)
    (hopens : fs.Opens dir (dir :: rest) name place) :
    fs.remains place (dir :: rest) < fs.remains dir rest := by
  obtain ⟨e, he⟩ := hfinds.entry
  by_cases hlink : ∃ target, e = .link target
  · obtain ⟨target, rfl⟩ := hlink
    have hvisited :
        (fs.unvisited (place :: dir :: rest)).card < (fs.unvisited (dir :: rest)).card :=
      card_filter_cons_lt (mem_places hopens.directory) (hopens.no_loop target he)
    calc fs.remains place (dir :: rest)
        ≤ (fs.unvisited (place :: dir :: rest)).card * (fs.entries.size + 2) +
            (fs.entries.size + 1) := Nat.add_le_add_left (fs.card_placesBelow_le place) _
      _ < ((fs.unvisited (place :: dir :: rest)).card + 1) * (fs.entries.size + 2) := by
        rw [Nat.add_one_mul]
        omega
      _ ≤ (fs.unvisited (dir :: rest)).card * (fs.entries.size + 2) :=
        Nat.mul_le_mul_right _ hvisited
      _ ≤ fs.remains dir rest := Nat.le_add_right _ _
  · obtain rfl := h.place_eq hname hfinds fun target heq =>
      hlink ⟨target, Option.some.inj (he.symm.trans heq)⟩
    exact Nat.add_lt_add_of_le_of_lt
      (Nat.mul_le_mul_right _ (card_filter_cons_le _ _ _)) (card_placesBelow_concat_lt he)

theorem length_add_remains_le (h : fs.Passage root names (dir :: rest)) :
    names.length + fs.remains dir rest ≤
      (fs.entries.size + 1) * (fs.entries.size + 2) + (fs.entries.size + 1) := by
  refine h.length_add_le (fun place hdir => ?_) fun h => h.remains_lt
  have hunvisited : (fs.unvisited [place]).card ≤ fs.entries.size + 1 :=
    (Finset.card_filter_le _ _).trans fs.card_places_le
  exact Nat.add_le_add (Nat.mul_le_mul_right _ hunvisited) (fs.card_placesBelow_le place)

/-- The walk goes deep enough for every passage. -/
theorem length_lt (h : fs.Passage root names (dir :: rest)) : names.length < fs.walkDepth := by
  have hle := h.length_add_remains_le
  have hdepth : fs.walkDepth =
      (fs.entries.size + 1) * (fs.entries.size + 2) + (fs.entries.size + 2) := by
    rw [walkDepth]
    ring
  omega

end Passage

/-! ## A bound by directories and levels -/

/-- Where directories are. -/
def directories (fs : FileSystem) : Finset Place :=
  fs.places.filter fun q => fs.entryAt q = some .directory

/-- The most names that lead to an entry, links aside. -/
def treeDepth (fs : FileSystem) : Nat := fs.places.sup List.length

theorem length_le_treeDepth (h : fs.entryAt place = some e) : place.length ≤ fs.treeDepth :=
  Finset.le_sup (f := List.length) (mem_places h)

theorem mem_directories (h : fs.entryAt place = some .directory) : place ∈ fs.directories :=
  Finset.mem_filter.2 ⟨mem_places h, h⟩

/-- At most as many names are to come as there are directories not yet open, each by the depth
of the tree, and levels of the tree below the current directory. -/
def namesLeft (fs : FileSystem) (dir : Place) (rest : List Place) : Nat :=
  (fs.directories.filter fun q => q ∉ dir :: rest).card * (fs.treeDepth + 1) +
    (fs.treeDepth + 1 - dir.length)

namespace Passage

theorem namesLeft_lt (h : fs.Passage root names (dir :: rest)) (hname : name.Proper)
    (hfinds : fs.Finds dir (root.below names) name place)
    (hopens : fs.Opens dir (dir :: rest) name place) :
    fs.namesLeft place (dir :: rest) < fs.namesLeft dir rest := by
  obtain ⟨e, he⟩ := hfinds.entry
  have hdir := length_le_treeDepth h.directory
  have hplace := length_le_treeDepth hopens.directory
  by_cases hlink : ∃ target, e = .link target
  · obtain ⟨target, rfl⟩ := hlink
    have hfewer := Nat.mul_le_mul_right (fs.treeDepth + 1)
      (card_filter_cons_lt (mem_directories hopens.directory) (hopens.no_loop target he))
    rw [Nat.succ_mul] at hfewer
    unfold namesLeft
    omega
  · obtain rfl := h.place_eq hname hfinds fun target heq =>
      hlink ⟨target, Option.some.inj (he.symm.trans heq)⟩
    have hfewer := Nat.mul_le_mul_right (fs.treeDepth + 1)
      (card_filter_cons_le fs.directories (dir ++ [name]) (dir :: rest))
    rw [List.length_append, List.length_singleton] at hplace
    unfold namesLeft
    rw [List.length_append, List.length_singleton]
    omega

theorem length_add_namesLeft_le (h : fs.Passage root names (dir :: rest)) :
    names.length + fs.namesLeft dir rest ≤ fs.directories.card * (fs.treeDepth + 1) := by
  refine h.length_add_le (fun place hdir => ?_) namesLeft_lt
  have hfewer := Nat.mul_le_mul_right (fs.treeDepth + 1)
    (card_filter_cons_lt (mem_directories hdir) List.not_mem_nil)
  simp only [List.not_mem_nil, not_false_eq_true, Finset.filter_true] at hfewer
  rw [Nat.succ_mul] at hfewer
  unfold namesLeft
  omega

/-- A passage goes down the tree at most once for every directory. -/
theorem length_lt_of_tree (h : fs.Passage root names (dir :: rest)) :
    names.length < fs.directories.card * (fs.treeDepth + 1) := by
  have hle := h.length_add_namesLeft_le
  have hdir := length_le_treeDepth h.directory
  unfold namesLeft at hle
  omega

end Passage

end WorkspaceTrust.FileSystem
