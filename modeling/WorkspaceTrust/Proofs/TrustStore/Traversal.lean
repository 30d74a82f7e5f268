import WorkspaceTrust.Proofs.TrustStore.Visible

/-!
# The traversal of a trust store ends

`Traversal` says what a traversal does and does not say how deep it may
go: it comes to the entries of a directory one after the other, and the
entries of one that it opens come before the next. Its trace are the
entries with what becomes of them. There is just one trace
(`Traversal.unique`), and there always is one (`exists_traversal`): the
directories that are opened are the ends of passages, so they are not
deeper than the walk goes.

A directory can be opened inside itself, if the way leads out by a link
and in again without one (`returning`), so that it does not help to count
directories. But a link never opens one that is open already. Hence on a
way there are at most as many links as directories, and between two of
them it only goes down the tree (`Passage.length_lt_of_tree`).
-/

namespace WorkspaceTrust

namespace FileSystem

variable {fs : FileSystem} {root path : Path} {names front : List FileName} {name : FileName}
  {dir place : Place} {rest visited : List Place} {e : Entry}
  {children : List (FileName × Entry)}

/-! ## Traversals -/

/-- What becomes of an entry that a traversal comes to. -/
inductive Treatment where
  | passedOver
  | listed
  | opened
deriving DecidableEq

/-- The entries that a traversal comes to, by their names from the root on. -/
abbrev Trace := List (List FileName × Treatment)

/-- The paths of the entries that are listed. -/
def Trace.paths (root : Path) (trace : Trace) : List Path :=
  (trace.filter fun v => v.2 = .listed).map fun v => root.below v.1

/-- The entry is neither a file nor a directory that is opened. -/
structure PassesOver (fs : FileSystem) (dir : Place) (path : Path) (visited : List Place)
    (name : FileName) : Prop where
  not_file : ∀ place content, fs.Finds dir path name place →
    fs.entryAt place ≠ some (.file content)
  not_opened : ∀ place, fs.Finds dir path name place → ¬ fs.Opens dir visited name place

/-- The traversal of entries of the directory where the names lead to, and of what is below
them. The place of the directory is `dir`, and `rest` are those that are open around it. -/
inductive Traverses (fs : FileSystem) (root : Path) :
    List FileName → Place → List Place → List (FileName × Entry) → Trace → Prop
  | done {names : List FileName} {dir : Place} {rest : List Place} :
      Traverses fs root names dir rest [] []
  | passOver {names : List FileName} {dir : Place} {rest : List Place} {name : FileName}
      {e : Entry} {children : List (FileName × Entry)} {trace : Trace}
      (hpass : fs.PassesOver dir (root.below names) (dir :: rest) name)
      (h : Traverses fs root names dir rest children trace) :
      Traverses fs root names dir rest ((name, e) :: children)
        ((names ++ [name], .passedOver) :: trace)
  | list {names : List FileName} {dir : Place} {rest : List Place} {name : FileName} {e : Entry}
      {children : List (FileName × Entry)} {place : Place} {content : List UInt8} {trace : Trace}
      (hfinds : fs.Finds dir (root.below names) name place)
      (hfile : fs.entryAt place = some (.file content))
      (h : Traverses fs root names dir rest children trace) :
      Traverses fs root names dir rest ((name, e) :: children)
        ((names ++ [name], .listed) :: trace)
  | enter {names : List FileName} {dir : Place} {rest : List Place} {name : FileName} {e : Entry}
      {children : List (FileName × Entry)} {place : Place} {inner trace : Trace}
      (hfinds : fs.Finds dir (root.below names) name place)
      (hopens : fs.Opens dir (dir :: rest) name place)
      (hinner : Traverses fs root (names ++ [name]) place (dir :: rest) (fs.children place) inner)
      (h : Traverses fs root names dir rest children trace) :
      Traverses fs root names dir rest ((name, e) :: children)
        ((names ++ [name], .opened) :: inner ++ trace)

/-- The traversal of a trust store. -/
inductive Traversal (fs : FileSystem) (root : Path) : Trace → Prop
  | unresolved {fault : Fault} (h : fs.locate root = .error fault) : Traversal fs root []
  | file {place : Place} {content : List UInt8} (hroot : fs.locate root = .ok place)
      (hfile : fs.entryAt place = some (.file content)) : Traversal fs root [([], .listed)]
  | directory {place : Place} {trace : Trace} (hroot : fs.locate root = .ok place)
      (hdir : fs.entryAt place = some .directory)
      (h : fs.Traverses root [] place [] (fs.children place) trace) :
      Traversal fs root (([], .opened) :: trace)
  | other {place : Place} (hroot : fs.locate root = .ok place)
      (hfile : ∀ content, fs.entryAt place ≠ some (.file content))
      (hdir : fs.entryAt place ≠ some .directory) : Traversal fs root [([], .passedOver)]

variable {trace : Trace}

theorem Trace.paths_append (root : Path) (trace trace' : Trace) :
    Trace.paths root (trace ++ trace') = Trace.paths root trace ++ Trace.paths root trace' := by
  simp [paths]

/-! ## There is one trace -/

theorem Finds.place_unique {place' : Place} (h : fs.Finds dir path name place)
    (h' : fs.Finds dir path name place') : place = place' :=
  Except.ok.inj (h.located.symm.trans h'.located)

/-- What becomes of an entry excludes everything else, so that the entries determine the trace. -/
theorem Traverses.unique (h : fs.Traverses root names dir rest children trace) :
    ∀ {trace' : Trace}, fs.Traverses root names dir rest children trace' → trace = trace' := by
  induction h with
  | done =>
    intro trace' h'
    cases h'
    rfl
  | passOver hpass _ ih =>
    intro trace' h'
    cases h' with
    | passOver _ h' => rw [ih h']
    | list hfinds hfile _ => exact absurd hfile (hpass.not_file _ _ hfinds)
    | enter hfinds hopens _ _ => exact absurd hopens (hpass.not_opened _ hfinds)
  | list hfinds hfile _ ih =>
    intro trace' h'
    cases h' with
    | passOver hpass _ => exact absurd hfile (hpass.not_file _ _ hfinds)
    | list _ _ h' => rw [ih h']
    | enter hfinds' hopens _ _ =>
      obtain rfl := hfinds.place_unique hfinds'
      cases hfile.symm.trans hopens.directory
  | enter hfinds hopens _ _ ihinner ih =>
    intro trace' h'
    cases h' with
    | passOver hpass _ => exact absurd hopens (hpass.not_opened _ hfinds)
    | list hfinds' hfile _ =>
      obtain rfl := hfinds.place_unique hfinds'
      cases hfile.symm.trans hopens.directory
    | enter hfinds' _ hinner' h' =>
      obtain rfl := hfinds.place_unique hfinds'
      rw [ihinner hinner', ih h']

theorem Traversal.unique {trace' : Trace} (h : fs.Traversal root trace)
    (h' : fs.Traversal root trace') : trace = trace' := by
  have hplace : ∀ {place place'}, fs.locate root = .ok place → fs.locate root = .ok place' →
      place = place' := fun h h' => Except.ok.inj (h.symm.trans h')
  -- The four rules exclude each other by what the root leads to.
  cases h with
  | unresolved h =>
    cases h' with
    | unresolved _ => rfl
    | file hroot _ | directory hroot _ _ | other hroot _ _ => cases h.symm.trans hroot
  | file hroot hfile =>
    cases h' with
    | unresolved h => cases h.symm.trans hroot
    | file _ _ => rfl
    | directory hroot' hdir _ =>
      obtain rfl := hplace hroot hroot'
      cases hfile.symm.trans hdir
    | other hroot' hnot _ =>
      obtain rfl := hplace hroot hroot'
      exact absurd hfile (hnot _)
  | directory hroot hdir h =>
    cases h' with
    | unresolved h => cases h.symm.trans hroot
    | file hroot' hfile =>
      obtain rfl := hplace hroot hroot'
      cases hfile.symm.trans hdir
    | directory hroot' _ h' =>
      obtain rfl := hplace hroot hroot'
      rw [h.unique h']
    | other hroot' _ hnot =>
      obtain rfl := hplace hroot hroot'
      exact absurd hdir hnot
  | other hroot hfile hdir =>
    cases h' with
    | unresolved h => cases h.symm.trans hroot
    | file hroot' hfile' =>
      obtain rfl := hplace hroot hroot'
      exact absurd hfile' (hfile _)
    | directory hroot' hdir' _ =>
      obtain rfl := hplace hroot hroot'
      exact absurd hdir' hdir
    | other _ _ _ => rfl

/-! ## The walk is a traversal -/

theorem visit_of_passesOver {down : List Place → Path → List Path}
    (he : fs.entryAt (dir ++ [name]) = some e) (h : fs.PassesOver dir path visited name) :
    fs.visit down visited path (name, e) = [] := by
  refine List.eq_nil_iff_forall_not_mem.2 fun p hp => ?_
  obtain ⟨place, hfinds, ⟨⟨content, hfile⟩, -⟩ | ⟨hopens, -⟩⟩ := (mem_visit he).1 hp
  · exact h.not_file place content hfinds hfile
  · exact h.not_opened place hfinds hopens

/-- If what is below the directories that are opened can be traversed, all of it can. -/
theorem exists_traverses_children {depth : Nat}
    (hdown : ∀ {name place}, fs.Finds dir (root.below names) name place →
      fs.Opens dir (dir :: rest) name place → ∃ inner,
        fs.Traverses root (names ++ [name]) place (dir :: rest) (fs.children place) inner ∧
        inner.paths root = fs.walk depth (place :: dir :: rest) (root.below (names ++ [name]))) :
    ∀ {children : List (FileName × Entry)}, (∀ child ∈ children, child ∈ fs.children dir) →
      ∃ trace, fs.Traverses root names dir rest children trace ∧ trace.paths root =
        children.flatMap (fs.visit (fs.walk depth) (dir :: rest) (root.below names)) := by
  intro children
  induction children with
  | nil => exact fun _ => ⟨[], .done, rfl⟩
  | cons child children ih =>
    intro hchildren
    obtain ⟨hchild, hchildren⟩ := List.forall_mem_cons.1 hchildren
    obtain ⟨trace, htrace, hpaths⟩ := ih hchildren
    obtain ⟨name, e⟩ := child
    have he := mem_children.1 hchild
    rw [List.flatMap_cons, ← hpaths]
    by_cases hfile : ∃ place content, fs.Finds dir (root.below names) name place ∧
        fs.entryAt place = some (.file content)
    · obtain ⟨place, content, hfinds, hfile⟩ := hfile
      refine ⟨_, .list hfinds hfile htrace, ?_⟩
      rw [visit_of_file hfinds.shown e hfinds.located hfile]
      simp [Trace.paths]
    by_cases hopens : ∃ place, fs.Finds dir (root.below names) name place ∧
        fs.Opens dir (dir :: rest) name place
    · obtain ⟨place, hfinds, hopens⟩ := hopens
      obtain ⟨inner, hinner, hbelow⟩ := hdown hfinds hopens
      refine ⟨_, .enter hfinds hopens hinner htrace, ?_⟩
      rw [visit_of_opens he hfinds hopens, ← Path.below_concat, ← hbelow, Trace.paths_append]
      simp [Trace.paths]
    · have hpass : fs.PassesOver dir (root.below names) (dir :: rest) name :=
        ⟨fun place content hfinds h => hfile ⟨place, content, hfinds, h⟩,
          fun place hfinds h => hopens ⟨place, hfinds, h⟩⟩
      refine ⟨_, .passOver hpass htrace, ?_⟩
      rw [visit_of_passesOver he hpass]
      simp [Trace.paths]

/-- From the end of a passage on there is a traversal, and the walk lists its paths. -/
theorem Passage.exists_traverses (hproper : fs.Proper) :
    ∀ {depth : Nat} {names : List FileName} {dir : Place} {rest : List Place},
      fs.Passage root names (dir :: rest) → fs.walkDepth ≤ names.length + depth →
      ∃ trace, fs.Traverses root names dir rest (fs.children dir) trace ∧
        trace.paths root = fs.walk depth (dir :: rest) (root.below names) := by
  intro depth
  induction depth with
  -- A walk that has used up its depth would have come along too long a passage.
  | zero => exact fun hpassage hdepth => absurd hpassage.length_lt (Nat.not_lt.2 hdepth)
  | succ depth ih =>
    intro names dir rest hpassage hdepth
    refine exists_traverses_children (fun {name place} hfinds hopens => ?_) fun _ h => h
    obtain ⟨e, he⟩ := hfinds.entry
    refine ih (hpassage.enter (hproper.of_entryAt he) hfinds hopens) ?_
    rw [List.length_append, List.length_singleton]
    omega

/-- There is a traversal of every trust store, and the store lists its paths. -/
theorem exists_traversal (hproper : fs.Proper) (root : Path) :
    ∃ trace, fs.Traversal root trace ∧ trace.paths root = fs.filesBelow root := by
  cases hroot : fs.locate root with
  | error fault => exact ⟨[], .unresolved hroot, (filesBelow_of_error hroot).symm⟩
  | ok place =>
    by_cases hfile : ∃ content, fs.entryAt place = some (.file content)
    · obtain ⟨content, hfile⟩ := hfile
      have hentry := entry?_eq_some_iff.2 ⟨place, hroot, hfile⟩
      exact ⟨_, .file hroot hfile, (filesBelow_of_file hentry).symm⟩
    by_cases hdir : fs.entryAt place = some .directory
    · obtain ⟨trace, htrace, hpaths⟩ :=
        Passage.exists_traverses hproper (.start hroot hdir) (Nat.le_add_left _ _)
      exact ⟨_, .directory hroot hdir htrace,
        hpaths.trans (filesBelow_of_directory hroot hdir).symm⟩
    · have hfile : ∀ content, fs.entryAt place ≠ some (.file content) :=
        fun content h => hfile ⟨content, h⟩
      have hentry : fs.entry? root = fs.entryAt place := by
        unfold entry?
        rw [hroot]
      exact ⟨_, .other hroot hfile hdir,
        (filesBelow_of_other (by rwa [hentry]) (by rwa [hentry])).symm⟩

/-! ## The directories that are opened -/

/-- What is opened is the end of a passage. -/
theorem Traverses.exists_passage (hproper : fs.Proper)
    (h : fs.Traverses root names dir rest children trace)
    (hchildren : ∀ child ∈ children, child ∈ fs.children dir)
    (hpassage : fs.Passage root names (dir :: rest)) :
    ∀ {ns : List FileName}, (ns, .opened) ∈ trace → ∃ visited, fs.Passage root ns visited := by
  induction h with
  | done => exact fun hmem => absurd hmem List.not_mem_nil
  | passOver _ _ ih | list _ _ _ ih =>
    intro ns hmem
    obtain ⟨-, hchildren⟩ := List.forall_mem_cons.1 hchildren
    rcases List.mem_cons.1 hmem with heq | hmem
    · cases heq
    · exact ih hchildren hpassage hmem
  | enter hfinds hopens _ _ ihinner ih =>
    intro ns hmem
    obtain ⟨hchild, hchildren⟩ := List.forall_mem_cons.1 hchildren
    have hinner := hpassage.enter (hproper.of_entryAt (mem_children.1 hchild)) hfinds hopens
    rcases List.mem_append.1 hmem with hmem | hmem
    · rcases List.mem_cons.1 hmem with heq | hmem
      · cases heq
        exact ⟨_, hinner⟩
      · exact ihinner (fun _ h => h) hinner hmem
    · exact ih hchildren hpassage hmem

/-- The directory of an entry is the one that is traversed, or has been opened. -/
theorem Traverses.exists_concat
    (h : fs.Traverses root names dir rest children trace) :
    ∀ {v}, v ∈ trace → ∃ front name, v.1 = front ++ [name] ∧
      (front = names ∨ (front, .opened) ∈ trace) := by
  induction h with
  | done => exact fun hmem => absurd hmem List.not_mem_nil
  | passOver _ _ ih | list _ _ _ ih =>
    intro v hmem
    rcases List.mem_cons.1 hmem with rfl | hmem
    · exact ⟨_, _, rfl, .inl rfl⟩
    · obtain ⟨front, last, hv, hfront⟩ := ih hmem
      exact ⟨front, last, hv, hfront.imp id (List.mem_cons_of_mem _)⟩
  | enter _ _ _ _ ihinner ih =>
    intro v hmem
    rcases List.mem_append.1 hmem with hmem | hmem
    · rcases List.mem_cons.1 hmem with rfl | hmem
      · exact ⟨_, _, rfl, .inl rfl⟩
      · obtain ⟨front, last, hv, rfl | hfront⟩ := ihinner hmem
        · exact ⟨_, last, hv, .inr (List.mem_append_left _ (List.mem_cons_self ..))⟩
        · exact ⟨front, last, hv,
            .inr (List.mem_append_left _ (List.mem_cons_of_mem _ hfront))⟩
    · obtain ⟨front, last, hv, hfront⟩ := ih hmem
      exact ⟨front, last, hv, hfront.imp id (List.mem_append_right _)⟩

theorem Traversal.exists_passage (hproper : fs.Proper)
    (h : fs.Traversal root trace) (hmem : (names, .opened) ∈ trace) :
    ∃ visited, fs.Passage root names visited := by
  cases h with
  | unresolved _ => exact absurd hmem List.not_mem_nil
  | file _ _ | other _ _ _ => cases List.mem_singleton.1 hmem
  | directory hroot hdir h =>
    have hstart : fs.Passage root [] [_] := .start hroot hdir
    rcases List.mem_cons.1 hmem with heq | hmem
    · cases heq
      exact ⟨_, hstart⟩
    · exact h.exists_passage hproper (fun _ h => h) hstart hmem

theorem Traversal.opened_of_concat {t : Treatment} (h : fs.Traversal root trace)
    (hmem : (names ++ [name], t) ∈ trace) : (names, .opened) ∈ trace := by
  have hne : names ++ [name] ≠ [] := by simp
  cases h with
  | unresolved _ => exact absurd hmem List.not_mem_nil
  | file _ _ | other _ _ _ =>
    exact absurd (congrArg Prod.fst (List.mem_singleton.1 hmem)) hne
  | directory hroot hdir h =>
    rcases List.mem_cons.1 hmem with heq | hmem
    · exact absurd (congrArg Prod.fst heq) hne
    · obtain ⟨front, last, hconcat, hfront⟩ := h.exists_concat hmem
      obtain ⟨rfl, -⟩ := List.append_inj' hconcat rfl
      rcases hfront with rfl | hfront
      · exact List.mem_cons_self ..
      · exact List.mem_cons_of_mem _ hfront

/-- The way to an entry leads through directories that have been opened. -/
theorem Traversal.opened_of_prefix {t : Treatment} (h : fs.Traversal root trace)
    (hmem : (names, t) ∈ trace) (hfront : front <+: names) (hne : front ≠ names) :
    (front, .opened) ∈ trace := by
  induction names using List.reverseRecOn generalizing t with
  | nil => exact absurd (List.prefix_nil.1 hfront) hne
  | append_singleton names name ih =>
    have hopened := h.opened_of_concat hmem
    rcases List.prefix_concat_iff.1 hfront with rfl | hfront
    · exact absurd rfl hne
    by_cases heq : front = names
    · exact heq ▸ hopened
    · exact ih hopened hfront heq

/-! ## Links on the way -/

/-- On the way to an entry a directory is opened by a link. -/
structure OpensLink (fs : FileSystem) (root : Path) (trace : Trace) (names front : List FileName) :
    Prop where
  way : front <+: names
  opened : (front, .opened) ∈ trace
  link : fs.IsLink (root.below front)

/-- A link does not open a directory that is open. -/
theorem OpensLink.not_open (hproper : fs.Proper) (htrace : fs.Traversal root trace)
    (h : fs.OpensLink root trace names front) {before : List FileName} (hbefore : before <+: front)
    (hne : before ≠ front) : fs.locate (root.below before) ≠ fs.locate (root.below front) := by
  obtain ⟨visited, hpassage⟩ := htrace.exists_passage hproper h.opened
  exact hpassage.no_loop h.link hbefore hne

theorem OpensLink.locate_ne (hproper : fs.Proper)
    (htrace : fs.Traversal root trace) {front' : List FileName}
    (h : fs.OpensLink root trace names front) (h' : fs.OpensLink root trace names front')
    (hne : front ≠ front') : fs.locate (root.below front) ≠ fs.locate (root.below front') := by
  rcases List.prefix_or_prefix_of_prefix h.way h'.way with hbefore | hafter
  · exact h'.not_open hproper htrace hbefore hne
  · exact (h.not_open hproper htrace hafter hne.symm).symm

theorem Traversal.length_le (hproper : fs.Proper) {t : Treatment}
    (h : fs.Traversal root trace) (hmem : (names, t) ∈ trace) :
    names.length ≤ fs.directories.card * (fs.treeDepth + 1) := by
  rcases List.eq_nil_or_concat' names with rfl | ⟨front, name, rfl⟩
  · exact Nat.zero_le _
  · obtain ⟨visited, hpassage⟩ := h.exists_passage hproper (h.opened_of_concat hmem)
    obtain ⟨dir, rest, rfl⟩ := hpassage.exists_cons
    rw [List.length_append, List.length_singleton]
    exact hpassage.length_lt_of_tree

theorem Traversal.directory_of_opened (hproper : fs.Proper)
    (h : fs.Traversal root trace) (hmem : (names, .opened) ∈ trace) :
    fs.entry? (root.below names) = some .directory := by
  obtain ⟨visited, hpassage⟩ := h.exists_passage hproper hmem
  obtain ⟨dir, rest, rfl⟩ := hpassage.exists_cons
  exact entry?_eq_some_iff.2 ⟨dir, hpassage.located, hpassage.directory⟩

end FileSystem

namespace TrustStore

/-- A trust store with a link out of it, to the directory where it is. -/
def returning : FileSystem where
  entries := .ofList [([utf8 "store"], .directory),
    ([utf8 "store", utf8 "out"], .link (.ofString "/"))]
  workingDirectory := []

/-- The store is opened in itself, where the link out of it is passed over. -/
theorem traversal_returning : returning.Traversal (.ofString "store")
    [([], .opened), ([utf8 "out"], .opened), ([utf8 "out", utf8 "store"], .opened),
      ([utf8 "out", utf8 "store", utf8 "out"], .passedOver)] := by
  have hdir : returning.entryAt [utf8 "store"] = some .directory := by decide +kernel
  have hlink : returning.entryAt [utf8 "store", utf8 "out"] = some (.link (.ofString "/")) := by
    decide +kernel
  have hstore : returning.children [utf8 "store"] = [(utf8 "out", .link (.ofString "/"))] := by
    decide +kernel
  have hroot : returning.children [] = [(utf8 "store", .directory)] := by decide +kernel
  have hout : returning.Finds [utf8 "store"] (.below (.ofString "store") []) (utf8 "out") [] :=
    ⟨by decide, ⟨_, hlink⟩, by decide +kernel⟩
  have hin : returning.Finds [] (.below (.ofString "store") [utf8 "out"]) (utf8 "store")
      [utf8 "store"] := ⟨by decide, ⟨_, hdir⟩, by decide +kernel⟩
  have hagain : returning.Finds [utf8 "store"]
      (.below (.ofString "store") [utf8 "out", utf8 "store"]) (utf8 "out") [] :=
    ⟨by decide, ⟨_, hlink⟩, by decide +kernel⟩
  have hloop : returning.PassesOver [utf8 "store"]
      (.below (.ofString "store") [utf8 "out", utf8 "store"])
      [[utf8 "store"], [], [utf8 "store"]] (utf8 "out") := by
    refine ⟨fun place content hfinds hfile => ?_, fun place hfinds hopens => ?_⟩
    · obtain rfl := hagain.place_unique hfinds
      cases hfile
    · obtain rfl := hagain.place_unique hfinds
      exact hopens.no_loop _ hlink (by simp)
  have hinside : returning.Traverses (.ofString "store") [utf8 "out", utf8 "store"]
      [utf8 "store"] [[], [utf8 "store"]] (returning.children [utf8 "store"])
      [([utf8 "out", utf8 "store", utf8 "out"], .passedOver)] := by
    rw [hstore]
    exact .passOver hloop .done
  have houtside : returning.Traverses (.ofString "store") [utf8 "out"] [] [[utf8 "store"]]
      (returning.children []) [([utf8 "out", utf8 "store"], .opened),
        ([utf8 "out", utf8 "store", utf8 "out"], .passedOver)] := by
    rw [hroot]
    exact .enter hin ⟨hdir, fun _ h => by cases hdir.symm.trans h⟩ hinside .done
  have hall : returning.Traverses (.ofString "store") [] [utf8 "store"] []
      (returning.children [utf8 "store"]) [([utf8 "out"], .opened),
        ([utf8 "out", utf8 "store"], .opened),
        ([utf8 "out", utf8 "store", utf8 "out"], .passedOver)] := by
    rw [hstore]
    exact .enter hout ⟨rfl, fun _ _ => by simp⟩ houtside .done
  exact .directory (by decide +kernel) hdir hall

/-- The traversal of a trust store ends on every graph of links: it has just one trace, and the
store lists the paths that are listed there. All directories on the way to an entry that it comes
to have been opened. A link on this way has opened none that was open, and no two links have
opened the same one. So the way is no longer than there are directories, times the levels of the
tree, although a directory can be on it twice. -/
theorem traversal_ends {fs : FileSystem} (hproper : fs.Proper) (root : Path) :
    (∃! trace, fs.Traversal root trace) ∧
    (∀ trace, fs.Traversal root trace →
      (TrustStore.mk (some root)).files fs = trace.paths root ∧
      (∀ names, (names, .opened) ∈ trace → fs.entry? (root.below names) = some .directory) ∧
      ∀ names t, (names, t) ∈ trace →
        (∀ front, front <+: names → front ≠ names → (front, .opened) ∈ trace) ∧
        (∀ front, fs.OpensLink root trace names front → ∀ before, before <+: front →
          before ≠ front → fs.locate (root.below before) ≠ fs.locate (root.below front)) ∧
        (∀ front front', fs.OpensLink root trace names front →
          fs.OpensLink root trace names front' → front ≠ front' →
          fs.locate (root.below front) ≠ fs.locate (root.below front')) ∧
        names.length ≤ fs.directories.card * (fs.treeDepth + 1)) ∧
    ∃ (fs' : FileSystem) (root' : Path) (trace : FileSystem.Trace) (names front : List FileName),
      fs'.Proper ∧ fs'.Traversal root' trace ∧ (names, .opened) ∈ trace ∧ front <+: names ∧
        front ≠ names ∧ ∃ place, fs'.locate (root'.below front) = .ok place ∧
          fs'.locate (root'.below names) = .ok place := by
  obtain ⟨trace, htrace, hpaths⟩ := FileSystem.exists_traversal hproper root
  refine ⟨⟨trace, htrace, fun trace' h => h.unique htrace⟩, fun trace' h => ?_, ?_⟩
  · obtain rfl := h.unique htrace
    exact ⟨hpaths.symm, fun names => h.directory_of_opened hproper, fun names t hmem =>
      ⟨fun front => h.opened_of_prefix hmem, fun front hfront before => hfront.not_open hproper h,
        fun front front' hfront => hfront.locate_ne hproper h, h.length_le hproper hmem⟩⟩
  · exact ⟨returning, .ofString "store", _, [utf8 "out", utf8 "store"], [], by decide +kernel,
      traversal_returning, by simp, List.nil_prefix, (List.cons_ne_nil _ _).symm,
      [utf8 "store"], by decide +kernel, by decide +kernel⟩

theorem traversal_ends_returning : returning.Proper ∧
    ∀ trace, returning.Traversal (.ofString "store") trace →
      (TrustStore.mk (some (.ofString "store"))).files returning =
        FileSystem.Trace.paths (.ofString "store") trace ∧
      ∀ names t, (names, t) ∈ trace → names.length ≤ 6 := by
  have hproper : returning.Proper := by decide +kernel
  have hbound : returning.directories.card * (returning.treeDepth + 1) = 6 := by decide +kernel
  obtain ⟨-, hall, -⟩ := traversal_ends hproper (.ofString "store")
  refine ⟨hproper, fun trace htrace => ?_⟩
  obtain ⟨hpaths, -, hentries⟩ := hall trace htrace
  exact ⟨hpaths, fun names t hmem => hbound ▸ (hentries names t hmem).2.2.2⟩

end TrustStore

end WorkspaceTrust
