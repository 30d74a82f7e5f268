import WorkspaceTrust.FileSystem.Change
import WorkspaceTrust.Proofs.FileSystem.Path
import WorkspaceTrust.Proofs.Result

/-!
# The names in a file system

A file system is `Proper` if all names in it are names that entries can
have. The names of places come from paths, in whose names there are no
slashes, so that every way of resolving a path ends at a place with
proper names (`proper_of_follow`), and all changes keep a file system
proper, whether they succeed or not.
-/

namespace WorkspaceTrust

/-- All names of the place are names that entries can have. -/
def Place.Proper (place : Place) : Prop := ∀ name ∈ place, name.Proper

namespace Place

variable {place : Place} {name : FileName}

theorem proper_nil : Proper [] := fun _ h => absurd h List.not_mem_nil

theorem Proper.concat (h : Proper place) (hname : name.Proper) : Proper (place ++ [name]) :=
  List.forall_mem_append.2 ⟨h, List.forall_mem_singleton.2 hname⟩

theorem Proper.dropLast (h : Proper place) : Proper place.dropLast :=
  fun name hname => h name (List.dropLast_subset _ hname)

end Place

namespace Path

variable {p : Path}

theorem proper_names (p : Path) : Place.Proper p.names := fun _ h => proper_of_mem_names h

theorem proper_steps (p : Path) : Place.Proper p.steps := by
  refine List.forall_mem_append.2 ⟨p.proper_names, ?_⟩
  split
  · exact List.forall_mem_singleton.2 ⟨by decide, by decide⟩
  · exact Place.proper_nil

end Path

namespace FileSystem

def Target.place : Target → Place
  | .found place => place
  | .vacant place => place

variable {fs fs' : FileSystem} {place : Place} {names : List FileName} {p : Path}

/-- All places have proper names. -/
structure Proper (fs : FileSystem) : Prop where
  entries : ∀ place ∈ fs.entries.keys, Place.Proper place
  workingDirectory : Place.Proper fs.workingDirectory

instance (fs : FileSystem) : Decidable fs.Proper :=
  decidable_of_iff ((∀ place ∈ fs.entries.keys, ∀ name ∈ place, name.Proper) ∧
      ∀ name ∈ fs.workingDirectory, name.Proper)
    ⟨fun h => ⟨h.1, h.2⟩, fun h => ⟨h.entries, h.workingDirectory⟩⟩

/-! ## Resolving -/

theorem proper_of_along {jump : Place → List FileName → Except Fault Target}
    (hjump : ∀ {place names target}, Place.Proper place → Place.Proper names →
      jump place names = .ok target → Place.Proper target.place) :
    ∀ {place : Place} {target : Target}, Place.Proper place → Place.Proper names →
      fs.along jump place names = .ok target → Place.Proper target.place := by
  induction names with
  | nil =>
    intro place target hplace _ h
    cases h
    exact hplace
  | cons name names ih =>
    intro place target hplace hnames h
    obtain ⟨hname, hnames⟩ := List.forall_mem_cons.1 hnames
    have hnext := hplace.concat hname
    rw [along] at h
    split at h
    · cases h
    split at h
    · exact ih hplace hnames h
    split at h
    · exact ih hplace.dropLast hnames h
    split at h
    · cases h
    split at h
    · split at h
      · cases h
        exact hnext
      · cases h
    · next link _ =>
      refine hjump ?_ (List.forall_mem_append.2 ⟨link.proper_steps, hnames⟩) h
      split
      · exact Place.proper_nil
      · exact hplace
    · exact ih hnext hnames h

theorem proper_of_follow {links : Nat} : ∀ {place : Place} {names : List FileName}
    {target : Target}, Place.Proper place → Place.Proper names →
      fs.follow links place names = .ok target → Place.Proper target.place := by
  induction links with
  | zero => exact proper_of_along fun _ _ h => by cases h
  | succ links ih => exact proper_of_along ih

theorem Proper.base (h : fs.Proper) (p : Path) : Place.Proper (fs.base p) := by
  rw [FileSystem.base]
  split
  · exact Place.proper_nil
  · exact h.workingDirectory

theorem Proper.resolve (h : fs.Proper) {target : Target} (hp : fs.resolve p = .ok target) :
    Place.Proper target.place := by
  obtain ⟨-, -, hp⟩ := bind_eq_ok.1 hp
  exact proper_of_follow (h.base p) p.proper_steps hp

theorem Proper.placeOfName (h : fs.Proper) (hp : fs.placeOfName p = .ok place) :
    Place.Proper place := by
  obtain ⟨-, -, hp⟩ := bind_eq_ok.1 hp
  split at hp
  · cases hp
  next name hname =>
  have hname : name.Proper := p.proper_names name (List.mem_of_getLast? hname)
  split at hp
  · cases hp
  split at hp
  · cases hp
  obtain ⟨target, htarget, hp⟩ := bind_eq_ok.1 hp
  have hproper := proper_of_follow (h.base p) (Place.Proper.dropLast p.proper_names) htarget
  split at hp
  · cases hp
  · split at hp
    · cases hp
      exact hproper.concat hname
    · cases hp

/-! ## Changes -/

theorem proper_default : (default : FileSystem).Proper :=
  ⟨fun _ h => absurd h List.not_mem_nil, Place.proper_nil⟩

theorem Proper.put (h : fs.Proper) (hplace : Place.Proper place) (e : Entry) :
    (fs.put place e).Proper := by
  refine ⟨fun q hq => ?_, h.workingDirectory⟩
  obtain ⟨entry, hentry, rfl⟩ := List.mem_map.1 hq
  rcases SortedMap.mem_insertEntry hentry with rfl | hentry
  · exact hplace
  · exact h.entries _ (List.mem_map_of_mem hentry)

theorem Proper.makeDirectoriesFrom : ∀ {names : List FileName} {fs : FileSystem} {place : Place},
    fs.Proper → Place.Proper place → Place.Proper names →
      fs.makeDirectoriesFrom place names = .ok fs' → fs'.Proper := by
  intro names
  induction names with
  | nil =>
    intro fs place h _ _ hmake
    cases hmake
    exact h
  | cons name names ih =>
    intro fs place h hplace hnames hmake
    obtain ⟨hname, hnames⟩ := List.forall_mem_cons.1 hnames
    obtain ⟨target, htarget, hmake⟩ := bind_eq_ok.1 hmake
    have hnext := proper_of_follow hplace (List.forall_mem_singleton.2 hname) htarget
    split at hmake
    · split at hmake
      · exact ih h hnext hnames hmake
      · cases hmake
    · split at hmake
      · exact ih (h.put hnext _) hnext hnames hmake
      · cases hmake

theorem Proper.makeDirectory (h : fs.Proper) (hmake : fs.makeDirectory p = .ok fs') :
    fs'.Proper := by
  obtain ⟨-, -, hmake⟩ := bind_eq_ok.1 hmake
  exact h.makeDirectoriesFrom (h.base p) p.proper_names hmake

theorem Proper.write (h : fs.Proper) (p : Path) (content : List UInt8) :
    (fs.write p content).1.Proper := by
  rw [FileSystem.write]
  split
  · exact h
  next fs' hmake =>
  obtain ⟨-, -, hmake⟩ := bind_eq_ok.1 hmake
  have h' : fs'.Proper :=
    h.makeDirectoriesFrom (h.base p) (Place.Proper.dropLast p.proper_names) hmake
  split
  · exact h'
  · next hresolve => exact h'.put (h'.resolve hresolve) _
  · next hresolve =>
    split
    · exact h'.put (h'.resolve hresolve) _
    · exact h'
    · exact h'

theorem Proper.link (h : fs.Proper) {target : Path} (hlink : fs.link target p = .ok fs') :
    fs'.Proper := by
  obtain ⟨-, -, hlink⟩ := bind_eq_ok.1 hlink
  obtain ⟨place, hplace, hlink⟩ := bind_eq_ok.1 hlink
  split at hlink
  · cases hlink
  split at hlink
  · cases hlink
  · cases hlink
    exact h.put (h.placeOfName hplace) _

theorem Proper.remove (h : fs.Proper) (hremove : fs.remove p = .ok fs') : fs'.Proper := by
  obtain ⟨place, -, hremove⟩ := bind_eq_ok.1 hremove
  split at hremove
  · cases hremove
  split at hremove
  · cases hremove
  · cases hremove
    refine ⟨fun q hq => ?_, h.workingDirectory⟩
    obtain ⟨entry, hentry, rfl⟩ := List.mem_map.1 hq
    exact h.entries _ (List.mem_map_of_mem (List.mem_filter.1 hentry).1)

end FileSystem

end WorkspaceTrust
