import WorkspaceTrust.Proofs.FileSystem.Names
import WorkspaceTrust.Proofs.TrustStore.Passage

/-!
# What the walk through a trust store lists

One level of the walk is a passage that is prolonged by one name
(`mem_walk_succ`). From the root on, the walk therefore lists the files
that are found at the end of a passage: nothing else, by induction on its
depth (`exists_lists_of_mem_walk`), and all of them, by induction on the
passage (`mem_walk_of_passage`), because it is deep enough.

Within a directory the entries come in the order of their names, and what
is below an entry comes where the entry would, so that the paths are in
the order of their components (`walk_increasing`).
-/

namespace WorkspaceTrust.FileSystem

variable {fs : FileSystem} {root path p : Path} {names : List FileName} {name : FileName}
  {dir place : Place} {rest visited : List Place} {e : Entry} {depth : Nat}

theorem entryAt_concat : fs.entryAt (dir ++ [name]) = fs.entries.get? (dir ++ [name]) := by
  cases dir <;> rfl

theorem Proper.of_entryAt (h : fs.Proper) (he : fs.entryAt (dir ++ [name]) = some e) :
    name.Proper := by
  rw [entryAt_concat] at he
  have hmem := List.mem_map_of_mem (f := Prod.fst) (SortedMap.get?_eq_some_iff.1 he)
  exact h.entries _ hmem name (List.mem_append_right _ (List.mem_singleton_self name))

/-! ## The entries of a directory -/

/-- The entry at a place with its name, if it is one of the directory. -/
def child? (dir : Place) (entry : Place × Entry) : Option (FileName × Entry) :=
  if entry.1.dropLast = dir then entry.1.getLast?.map fun name => (name, entry.2) else none

theorem children_eq (fs : FileSystem) (dir : Place) :
    fs.children dir = fs.entries.entries.filterMap (child? dir) := by
  refine congrArg (List.filterMap · fs.entries.entries) (funext fun (q, e) => ?_)
  cases hlast : q.getLast? with
  | none => simp [child?, hlast]
  | some name => simp [child?, hlast]

theorem child?_eq_some_iff {q : Place} {c : FileName × Entry} :
    child? dir (q, e) = some c ↔ q = dir ++ [c.1] ∧ e = c.2 := by
  constructor
  · intro h
    rw [child?] at h
    split at h
    · next hdir =>
      obtain ⟨name, hlast, rfl⟩ := Option.map_eq_some_iff.1 h
      obtain ⟨front, rfl⟩ := List.getLast?_eq_some_iff.1 hlast
      rw [List.dropLast_concat] at hdir
      exact ⟨hdir ▸ rfl, rfl⟩
    · cases h
  · rintro ⟨rfl, rfl⟩
    simp [child?]

theorem mem_children : (name, e) ∈ fs.children dir ↔ fs.entryAt (dir ++ [name]) = some e := by
  rw [entryAt_concat, SortedMap.get?_eq_some_iff, children_eq, List.mem_filterMap]
  constructor
  · rintro ⟨⟨q, e'⟩, hmem, hq⟩
    obtain ⟨rfl, rfl⟩ := child?_eq_some_iff.1 hq
    exact hmem
  · exact fun hmem => ⟨_, hmem, child?_eq_some_iff.2 ⟨rfl, rfl⟩⟩

theorem before_of_concat {n m : FileName}
    (h : KeyOrder.before (dir ++ [n]) (dir ++ [m]) = true) : KeyOrder.before n m = true := by
  have hlast : KeyOrder.lexBefore [n] [m] = true := (Path.lexBefore_append_left dir).symm.trans h
  rw [KeyOrder.lexBefore] at hlast
  split at hlast
  · next hnm => exact hnm
  · split at hlast <;> cases hlast

/-- The entries of a directory are in the order of their names. -/
theorem children_increasing (fs : FileSystem) (dir : Place) :
    (fs.children dir).Pairwise fun a b => KeyOrder.before a.1 b.1 = true := by
  rw [children_eq, List.pairwise_filterMap]
  refine fs.entries.increasing.imp ?_
  rintro ⟨q, e⟩ ⟨q', e'⟩ hlt c hc c' hc'
  obtain ⟨rfl, -⟩ := child?_eq_some_iff.1 hc
  obtain ⟨rfl, -⟩ := child?_eq_some_iff.1 hc'
  exact before_of_concat hlt

/-! ## One level -/

/-- An entry is listed if it is a file, and what is below it if it is opened. -/
theorem mem_visit {down : List Place → Path → List Path}
    (he : fs.entryAt (dir ++ [name]) = some e) :
    p ∈ fs.visit down visited path (name, e) ↔ ∃ place, fs.Finds dir path name place ∧
      ((∃ content, fs.entryAt place = some (.file content)) ∧ p = path.join name ∨
        fs.Opens dir visited name place ∧ p ∈ down (place :: visited) (path.join name)) := by
  rw [visit]
  constructor
  · intro hp
    split at hp
    · exact absurd hp List.not_mem_nil
    next hshown =>
    have hshown : isHidden name = false := by simpa using hshown
    simp only at hp
    split at hp
    · exact absurd hp List.not_mem_nil
    next place hplace =>
    refine ⟨place, ⟨hshown, ⟨e, he⟩, hplace⟩, ?_⟩
    split at hp
    · next content hcontent =>
      exact .inl ⟨⟨content, hcontent⟩, List.mem_singleton.1 hp⟩
    · next target hdirectory =>
      split at hp
      · exact absurd hp List.not_mem_nil
      · next hnew => exact .inr ⟨⟨hdirectory, fun _ _ => by simpa using hnew⟩, hp⟩
    · next hlink hdirectory =>
      refine .inr ⟨⟨hdirectory, fun target htarget => ?_⟩, hp⟩
      exact absurd (Option.some.inj (he.symm.trans htarget)) (hlink target)
    · exact absurd hp List.not_mem_nil
  · rintro ⟨place, ⟨hshown, -, hplace⟩, hp⟩
    rw [if_neg (by simp [hshown])]
    simp only [hplace]
    rcases hp with ⟨⟨content, hcontent⟩, rfl⟩ | ⟨⟨hdirectory, hnew⟩, hp⟩
    · cases e <;> simp [hcontent]
    · cases e with
      | link target => simpa [hdirectory, hnew target he] using hp
      | _ => simpa [hdirectory] using hp

/-- What leads to a file is listed. -/
theorem visit_of_file {down : List Place → Path → List Path} {bytes : List UInt8}
    (hshown : isHidden name = false) (e : Entry) (hplace : fs.locate (path.join name) = .ok place)
    (hfile : fs.entryAt place = some (.file bytes)) :
    fs.visit down visited path (name, e) = [path.join name] := by
  rw [visit, if_neg (by simp [hshown])]
  simp only [hplace]
  cases e <;> simp [hfile]

/-- What is below a directory that is opened is listed. -/
theorem visit_of_opens {down : List Place → Path → List Path}
    (he : fs.entryAt (dir ++ [name]) = some e) (hfinds : fs.Finds dir path name place)
    (hopens : fs.Opens dir visited name place) :
    fs.visit down visited path (name, e) = down (place :: visited) (path.join name) := by
  rw [visit, if_neg (by simp [hfinds.shown])]
  simp only [hfinds.located]
  cases e with
  | link target => simp [hopens.directory, hopens.no_loop target he]
  | _ => simp [hopens.directory]

theorem mem_walk_succ : p ∈ fs.walk (depth + 1) (dir :: rest) path ↔
    ∃ name place, fs.Finds dir path name place ∧
      ((∃ content, fs.entryAt place = some (.file content)) ∧ p = path.join name ∨
        fs.Opens dir (dir :: rest) name place ∧
          p ∈ fs.walk depth (place :: dir :: rest) (path.join name)) := by
  rw [walk, List.mem_flatMap]
  constructor
  · rintro ⟨⟨name, e⟩, hchild, hp⟩
    exact ⟨name, (mem_visit (mem_children.1 hchild)).1 hp⟩
  · rintro ⟨name, place, hfinds, hp⟩
    obtain ⟨e, he⟩ := hfinds.entry
    exact ⟨(name, e), mem_children.2 he, (mem_visit he).2 ⟨place, hfinds, hp⟩⟩

/-! ## All levels -/

/-- At the end of a passage a file is found. -/
structure Lists (fs : FileSystem) (root : Path) (names : List FileName) (name : FileName) :
    Prop where
  proper : name.Proper
  file : ∃ dir rest place content, fs.Passage root names (dir :: rest) ∧
    fs.Finds dir (root.below names) name place ∧ fs.entryAt place = some (.file content)

/-- What the walk lists from somewhere on a passage is found at the end of a passage. -/
theorem exists_lists_of_mem_walk (hproper : fs.Proper) :
    ∀ {depth : Nat} {names : List FileName} {dir : Place} {rest : List Place},
      fs.Passage root names (dir :: rest) → p ∈ fs.walk depth (dir :: rest) (root.below names) →
      ∃ later name, fs.Lists root (names ++ later) name ∧
        p = (root.below (names ++ later)).join name := by
  intro depth
  induction depth with
  | zero => exact fun _ hp => absurd hp List.not_mem_nil
  | succ depth ih =>
    intro names dir rest hpassage hp
    obtain ⟨name, place, hfinds, hp⟩ := mem_walk_succ.1 hp
    obtain ⟨e, he⟩ := hfinds.entry
    have hname := hproper.of_entryAt he
    rcases hp with ⟨⟨content, hcontent⟩, rfl⟩ | ⟨hopens, hp⟩
    · refine ⟨[], name, ?_, by rw [List.append_nil]⟩
      rw [List.append_nil]
      exact ⟨hname, dir, rest, place, content, hpassage, hfinds, hcontent⟩
    · rw [← Path.below_concat] at hp
      obtain ⟨later, last, hlists, rfl⟩ := ih (hpassage.enter hname hfinds hopens) hp
      rw [List.append_assoc, List.singleton_append] at hlists ⊢
      exact ⟨name :: later, last, hlists, rfl⟩

/-- What the walk lists from the end of a passage it lists from its root, if it goes
deeper by the length of the passage. -/
theorem mem_walk_of_passage (h : fs.Passage root names visited) (hroot : fs.locate root = .ok place) :
    ∀ {depth : Nat}, p ∈ fs.walk depth visited (root.below names) →
      p ∈ fs.walk (depth + names.length) [place] root := by
  induction h with
  | start hroot' =>
    intro depth hp
    obtain rfl := Except.ok.inj (hroot.symm.trans hroot')
    exact hp
  | @enter names _ _ name _ _ _ hfinds hopens ih =>
    intro depth hp
    rw [Path.below_concat] at hp
    have hmem := ih (mem_walk_succ.2 ⟨name, _, hfinds, .inr ⟨hopens, hp⟩⟩)
    rwa [List.length_append, List.length_singleton, ← Nat.add_assoc, Nat.add_right_comm]

/-- All files at the ends of passages are listed. -/
theorem Lists.mem_walk (h : fs.Lists root names name) (hroot : fs.locate root = .ok place) :
    (root.below names).join name ∈ fs.walk fs.walkDepth [place] root := by
  obtain ⟨-, dir, rest, goal, content, hpassage, hfinds, hcontent⟩ := h
  have hlt := hpassage.length_lt
  obtain ⟨depth, hdepth⟩ : ∃ depth, fs.walkDepth = depth + 1 + names.length :=
    ⟨fs.walkDepth - 1 - names.length, by omega⟩
  rw [hdepth]
  exact mem_walk_of_passage hpassage hroot
    (mem_walk_succ.2 ⟨name, goal, hfinds, .inl ⟨⟨content, hcontent⟩, rfl⟩⟩)

/-! ## The order -/

/-- What is listed for an entry is the path of the entry, or below it. -/
theorem exists_below_of_mem_visit (hproper : fs.Proper) {down : List Place → Path → List Path}
    (hdown : ∀ {place path p}, p ∈ down (place :: visited) path → ∃ names,
      p = path.below names ∧ ∀ n ∈ names, n.Proper ∧ isHidden n = false)
    (he : fs.entryAt (dir ++ [name]) = some e) (hp : p ∈ fs.visit down visited path (name, e)) :
    ∃ names, p = path.below (name :: names) ∧
      ∀ n ∈ name :: names, n.Proper ∧ isHidden n = false := by
  obtain ⟨place, hfinds, hp⟩ := (mem_visit he).1 hp
  have hname : name.Proper ∧ isHidden name = false := ⟨hproper.of_entryAt he, hfinds.shown⟩
  rcases hp with ⟨-, rfl⟩ | ⟨-, hp⟩
  · exact ⟨[], rfl, List.forall_mem_singleton.2 hname⟩
  · obtain ⟨names, rfl, hnames⟩ := hdown hp
    exact ⟨names, rfl, List.forall_mem_cons.2 ⟨hname, hnames⟩⟩

theorem exists_below_of_mem_walk (hproper : fs.Proper) :
    ∀ {depth : Nat} {dir : Place} {rest : List Place} {path p : Path},
      p ∈ fs.walk depth (dir :: rest) path → ∃ names, p = path.below names ∧
        ∀ n ∈ names, n.Proper ∧ isHidden n = false := by
  intro depth
  induction depth with
  | zero => exact fun hp => absurd hp List.not_mem_nil
  | succ depth ih =>
    intro dir rest path p hp
    obtain ⟨⟨name, e⟩, hchild, hp⟩ := List.mem_flatMap.1 hp
    obtain ⟨names, rfl, hnames⟩ :=
      exists_below_of_mem_visit hproper ih (mem_children.1 hchild) hp
    exact ⟨name :: names, rfl, hnames⟩

theorem pairwise_visit {R : Path → Path → Prop} {down : List Place → Path → List Path}
    (hdown : ∀ place path, (down (place :: visited) path).Pairwise R) (path : Path)
    (child : FileName × Entry) : (fs.visit down visited path child).Pairwise R := by
  rw [visit]
  split
  · exact .nil
  simp only
  split
  · exact .nil
  split
  · exact List.pairwise_singleton _ _
  · split
    · exact .nil
    · exact hdown _ _
  · exact hdown _ _
  · exact .nil

/-- The paths are in the order of their components. -/
theorem walk_increasing (hproper : fs.Proper) :
    ∀ {depth : Nat} {dir : Place} {rest : List Place} {path : Path},
      (fs.walk depth (dir :: rest) path).Pairwise fun p q =>
        KeyOrder.before p.components q.components = true := by
  have hhere : ∀ {ns : List FileName}, (∀ n ∈ ns, n.Proper ∧ isHidden n = false) →
      ∀ n ∈ ns, n.Proper ∧ n ≠ Path.here :=
    fun h n hn => ⟨(h n hn).1, ne_here_of_shown (h n hn).2⟩
  intro depth
  induction depth with
  | zero => exact .nil
  | succ depth ih =>
    intro dir rest path
    rw [walk, List.pairwise_flatMap]
    refine ⟨fun child _ => pairwise_visit (fun _ _ => ih) path child,
      (fs.children_increasing dir).imp_of_mem ?_⟩
    rintro ⟨n, e⟩ ⟨m, e'⟩ hn hm hlt p hp q hq
    obtain ⟨ns, rfl, hns⟩ := exists_below_of_mem_visit hproper (exists_below_of_mem_walk hproper)
      (mem_children.1 hn) hp
    obtain ⟨ms, rfl, hms⟩ := exists_below_of_mem_visit hproper (exists_below_of_mem_walk hproper)
      (mem_children.1 hm) hq
    exact Path.before_components_below (hhere hns) (hhere hms) hlt

end WorkspaceTrust.FileSystem
