import WorkspaceTrust.FileSystem.Change
import WorkspaceTrust.Proofs.FileSystem.Path
import WorkspaceTrust.Proofs.Result

/-!
# Where paths lead

`Leads` is the relation behind `follow`: from a place along some names to
another, with so many links allowed at first and so many left at the end.
What has no name is where it was, a name is an entry to go on from, and a
link is replaced by the names of its target. `follow` finds a place
exactly if the names lead there (`follow_eq_found_iff`).

Names one after the other lead where each of them leads in turn
(`Leads.split`). So what is found at a path that is joined with a name is
found in the directory at that path (`locate_join`), and is the entry of
that name unless this is a link. And since only entries that are there
are looked at, what has been found is found again when something is put
where nothing was (`locate_put`).
-/

namespace WorkspaceTrust.FileSystem

variable {fs : FileSystem} {links left : Nat} {place goal dir : Place} {name : FileName}
  {names : List FileName} {p : Path} {e : Entry}

/-! ## Leading somewhere -/

/-- The place is a directory in which the name is looked up. -/
structure Admits (fs : FileSystem) (place : Place) (name : FileName) : Prop where
  directory : fs.entryAt place = some .directory
  ne_here : name ≠ Path.here
  ne_up : name ≠ Path.up
  length_le : name.length ≤ maxNameLength

/-- With `links` links allowed the names lead from the place to the goal, and `left` are
left. -/
inductive Leads (fs : FileSystem) : Nat → Place → List FileName → Nat → Place → Prop
  | done {links : Nat} {place : Place} : Leads fs links place [] links place
  | here {links left : Nat} {place goal : Place} {names : List FileName}
      (hdir : fs.entryAt place = some .directory) (h : Leads fs links place names left goal) :
      Leads fs links place (Path.here :: names) left goal
  | up {links left : Nat} {place goal : Place} {names : List FileName}
      (hdir : fs.entryAt place = some .directory)
      (h : Leads fs links place.dropLast names left goal) :
      Leads fs links place (Path.up :: names) left goal
  | enter {links left : Nat} {place goal : Place} {name : FileName} {names : List FileName}
      {e : Entry} (hname : fs.Admits place name) (he : fs.entryAt (place ++ [name]) = some e)
      (hlink : ∀ target, e ≠ .link target)
      (h : Leads fs links (place ++ [name]) names left goal) :
      Leads fs links place (name :: names) left goal
  | jump {links left : Nat} {place goal : Place} {name : FileName} {names : List FileName}
      {target : Path} (hname : fs.Admits place name)
      (he : fs.entryAt (place ++ [name]) = some (.link target))
      (h : Leads fs links (if target.isAbsolute then [] else place) (target.steps ++ names) left
        goal) :
      Leads fs (links + 1) place (name :: names) left goal

theorem follow_nil : fs.follow links place [] = .ok (.found place) := by
  cases links <;> rfl

variable {jump : Place → List FileName → Except Fault Target}

theorem along_here (hdir : fs.entryAt place = some .directory) :
    fs.along jump place (Path.here :: names) = fs.along jump place names := by
  rw [along, if_neg (fun hne => hne hdir), if_pos rfl]

theorem along_up (hdir : fs.entryAt place = some .directory) :
    fs.along jump place (Path.up :: names) = fs.along jump place.dropLast names := by
  rw [along, if_neg (fun hne => hne hdir), if_neg (by decide), if_pos rfl]

theorem along_of_link {target : Path} (h : fs.Admits place name)
    (he : fs.entryAt (place ++ [name]) = some (.link target)) :
    fs.along jump place (name :: names) =
      jump (if target.isAbsolute then [] else place) (target.steps ++ names) := by
  rw [along, if_neg (fun hne => hne h.directory), if_neg h.ne_here, if_neg h.ne_up,
    if_neg (Nat.not_lt.2 h.length_le), he]

theorem along_of_entry (h : fs.Admits place name) (he : fs.entryAt (place ++ [name]) = some e)
    (hlink : ∀ target, e ≠ .link target) :
    fs.along jump place (name :: names) = fs.along jump (place ++ [name]) names := by
  rw [along, if_neg (fun hne => hne h.directory), if_neg h.ne_here, if_neg h.ne_up,
    if_neg (Nat.not_lt.2 h.length_le), he]
  cases e with
  | link target => exact absurd rfl (hlink target)
  | file _ | directory | device => rfl

/-- A place is found behind a name only if the name has an entry. -/
theorem exists_of_along_cons (h : fs.along jump place (name :: names) = .ok (.found goal)) :
    fs.entryAt place = some .directory ∧ (name = Path.here ∨ name = Path.up ∨
      fs.Admits place name ∧ ∃ e, fs.entryAt (place ++ [name]) = some e) := by
  rw [along] at h
  split at h
  · cases h
  next hdir =>
  have hdir := Decidable.not_not.1 hdir
  refine ⟨hdir, ?_⟩
  split at h
  · next hhere => exact .inl hhere
  next hhere =>
  split at h
  · next hup => exact .inr (.inl hup)
  next hup =>
  split at h
  · cases h
  next hlength =>
  refine .inr (.inr ⟨⟨hdir, hhere, hup, Nat.not_lt.1 hlength⟩, ?_⟩)
  cases he : fs.entryAt (place ++ [name]) with
  | none =>
    rw [he] at h
    simp only at h
    split at h <;> cases h
  | some e => exact ⟨e, rfl⟩

theorem follow_of_leads (h : fs.Leads links place names left goal) :
    fs.follow links place names = .ok (.found goal) := by
  induction h with
  | done => exact follow_nil
  | @here links _ _ _ _ hdir _ ih => cases links <;> exact (along_here hdir).trans ih
  | @up links _ _ _ _ hdir _ ih => cases links <;> exact (along_up hdir).trans ih
  | @enter links _ _ _ _ _ _ hname he hlink _ ih =>
    cases links <;> exact (along_of_entry hname he hlink).trans ih
  | jump hname he _ ih => exact (along_of_link hname he).trans ih

theorem leads_of_along
    (hjump : ∀ place names, jump place names = .ok (.found goal) →
      ∃ fewer left, links = fewer + 1 ∧ fs.Leads fewer place names left goal) :
    ∀ {place : Place}, fs.along jump place names = .ok (.found goal) →
      ∃ left, fs.Leads links place names left goal := by
  induction names with
  | nil =>
    intro place h
    cases h
    exact ⟨links, .done⟩
  | cons name names ih =>
    intro place h
    obtain ⟨hdir, rfl | rfl | ⟨hname, e, he⟩⟩ := exists_of_along_cons h
    · obtain ⟨left, hleads⟩ := ih ((along_here hdir).symm.trans h)
      exact ⟨left, hleads.here hdir⟩
    · obtain ⟨left, hleads⟩ := ih ((along_up hdir).symm.trans h)
      exact ⟨left, hleads.up hdir⟩
    by_cases hlink : ∃ target, e = .link target
    · obtain ⟨target, rfl⟩ := hlink
      obtain ⟨fewer, left, rfl, hleads⟩ := hjump _ _ ((along_of_link hname he).symm.trans h)
      exact ⟨left, hleads.jump hname he⟩
    · have hlink : ∀ target, e ≠ .link target := fun target heq => hlink ⟨target, heq⟩
      obtain ⟨left, hleads⟩ := ih ((along_of_entry hname he hlink).symm.trans h)
      exact ⟨left, hleads.enter hname he hlink⟩

/-- What is found is where the names lead. -/
theorem follow_eq_found_iff : fs.follow links place names = .ok (.found goal) ↔
    ∃ left, fs.Leads links place names left goal := by
  refine ⟨fun h => ?_, fun ⟨_, h⟩ => follow_of_leads h⟩
  induction links generalizing place names with
  | zero => exact leads_of_along (fun _ _ h => by cases h) h
  | succ links ih =>
    refine leads_of_along (fun place names h => ?_) h
    obtain ⟨left, hleads⟩ := ih h
    exact ⟨links, left, rfl, hleads⟩

/-! ## Names one after the other -/

/-- What all names lead to, some of the names lead to on the way. -/
theorem Leads.split {names : List FileName} (h : fs.Leads links place names left goal) :
    ∀ {ns ms : List FileName}, names = ns ++ ms →
      ∃ between middle, fs.Leads links place ns between middle ∧
        fs.Leads between middle ms left goal := by
  induction h with
  | @done links place =>
    intro ns ms heq
    obtain ⟨rfl, rfl⟩ := List.append_eq_nil_iff.1 heq.symm
    exact ⟨links, place, .done, .done⟩
  | @here links _ place _ _ hdir h ih =>
    intro ns ms heq
    cases ns with
    | nil =>
      cases heq
      exact ⟨links, place, .done, h.here hdir⟩
    | cons n ns =>
      obtain ⟨rfl, rfl⟩ := List.cons.inj heq
      obtain ⟨between, middle, hns, hms⟩ := ih rfl
      exact ⟨between, middle, hns.here hdir, hms⟩
  | @up links _ place _ _ hdir h ih =>
    intro ns ms heq
    cases ns with
    | nil =>
      cases heq
      exact ⟨links, place, .done, h.up hdir⟩
    | cons n ns =>
      obtain ⟨rfl, rfl⟩ := List.cons.inj heq
      obtain ⟨between, middle, hns, hms⟩ := ih rfl
      exact ⟨between, middle, hns.up hdir, hms⟩
  | @enter links _ place _ _ _ _ hname he hlink h ih =>
    intro ns ms heq
    cases ns with
    | nil =>
      cases heq
      exact ⟨links, place, .done, h.enter hname he hlink⟩
    | cons n ns =>
      obtain ⟨rfl, rfl⟩ := List.cons.inj heq
      obtain ⟨between, middle, hns, hms⟩ := ih rfl
      exact ⟨between, middle, hns.enter hname he hlink, hms⟩
  | @jump links _ place _ _ _ _ hname he h ih =>
    intro ns ms heq
    cases ns with
    | nil =>
      cases heq
      exact ⟨links + 1, place, .done, h.jump hname he⟩
    | cons n ns =>
      obtain ⟨rfl, rfl⟩ := List.cons.inj heq
      obtain ⟨between, middle, hns, hms⟩ := ih (List.append_assoc ..).symm
      exact ⟨between, middle, hns.jump hname he, hms⟩

/-- Names lead on from where the names before them lead. -/
theorem Leads.append {between : Nat} {middle : Place} {ms : List FileName}
    (h : fs.Leads links place names between middle) (hms : fs.Leads between middle ms left goal) :
    fs.Leads links place (names ++ ms) left goal := by
  induction h with
  | done => exact hms
  | here hdir _ ih => exact .here hdir (ih hms)
  | up hdir _ ih => exact .up hdir (ih hms)
  | enter hname he hlink _ ih => exact .enter hname he hlink (ih hms)
  | jump hname he _ ih =>
    have hrest := ih hms
    rw [List.append_assoc] at hrest
    exact .jump hname he hrest

/-- Links that are allowed besides are left in the end. -/
theorem Leads.spare (h : fs.Leads links place names left goal) (spare : Nat) :
    fs.Leads (links + spare) place names (left + spare) goal := by
  induction h with
  | done => exact .done
  | here hdir _ ih => exact .here hdir ih
  | up hdir _ ih => exact .up hdir ih
  | enter hname he hlink _ ih => exact .enter hname he hlink ih
  | @jump links _ _ _ _ _ _ hname he _ ih =>
    rw [Nat.add_right_comm]
    exact .jump hname he ih

/-- A place has only one goal. -/
theorem Leads.goal_unique {left' : Nat} {goal' : Place} (h : fs.Leads links place names left goal)
    (h' : fs.Leads links place names left' goal') : goal = goal' := by
  have heq := (follow_of_leads h).symm.trans (follow_of_leads h')
  cases heq
  rfl

/-- Where a single name leads: to the entry of that name, unless it is a link. -/
theorem Leads.of_singleton (hhere : name ≠ Path.here) (hup : name ≠ Path.up)
    (h : fs.Leads links place [name] left goal) :
    fs.Admits place name ∧ ∃ e, fs.entryAt (place ++ [name]) = some e ∧
      ((∀ target, e ≠ .link target) → goal = place ++ [name]) := by
  cases h with
  | here => exact absurd rfl hhere
  | up => exact absurd rfl hup
  | enter hname he hlink h =>
    cases h
    exact ⟨hname, _, he, fun _ => rfl⟩
  | jump hname he => exact ⟨hname, _, he, fun hno => absurd rfl (hno _)⟩

/-! ## Paths -/

theorem locate_eq_ok_iff : fs.locate p = .ok goal ↔
    checkPath p = .ok () ∧ ∃ left, fs.Leads maxLinks (fs.base p) p.steps left goal := by
  rw [locate, resolve, ← follow_eq_found_iff]
  cases checkPath p with
  | error fault => simp [Bind.bind, Except.bind]
  | ok u =>
    rw [ok_bind]
    cases fs.follow maxLinks (fs.base p) p.steps with
    | error fault => simp [Bind.bind, Except.bind]
    | ok target => cases target <;> simp [Bind.bind, Except.bind]

/-- A slash at the end of a path does not change where it leads. -/
theorem Leads.names_of_steps (h : fs.Leads links place p.steps left goal) :
    fs.Leads links place p.names left goal := by
  obtain ⟨between, middle, hnames, hend⟩ := h.split rfl
  split at hend
  · cases hend with
    | here hdir h =>
      cases h
      exact hnames
    | enter hname => exact absurd rfl hname.ne_here
    | jump hname => exact absurd rfl hname.ne_here
  · cases hend
    exact hnames

theorem leads_names_of_locate (h : fs.locate p = .ok goal) :
    ∃ left, fs.Leads maxLinks (fs.base p) p.names left goal := by
  obtain ⟨-, left, hleads⟩ := locate_eq_ok_iff.1 h
  exact ⟨left, hleads.names_of_steps⟩

/-- A path of an entry that can be resolved: the entry is in the directory that the path is
joined to, and found there unless it is a link. -/
theorem locate_join (hproper : name.Proper) (hhere : name ≠ Path.here) (hup : name ≠ Path.up)
    (hdir : fs.locate p = .ok dir) (h : fs.locate (p.join name) = .ok goal) :
    fs.Admits dir name ∧ ∃ e, fs.entryAt (dir ++ [name]) = some e ∧
      ((∀ target, e ≠ .link target) → goal = dir ++ [name]) := by
  obtain ⟨-, left, hleads⟩ := locate_eq_ok_iff.1 h
  rw [base, Path.isAbsolute_join hproper, Path.steps_join hproper, ← base] at hleads
  obtain ⟨between, middle, hnames, hname⟩ := hleads.split rfl
  obtain ⟨left', hdir⟩ := leads_names_of_locate hdir
  obtain rfl := hnames.goal_unique hdir
  exact hname.of_singleton hhere hup

/-- The path itself is a link, whatever this leads to. -/
def IsLink (fs : FileSystem) (p : Path) : Prop :=
  ∃ place target, fs.placeOfName p = .ok place ∧ fs.entryAt place = some (.link target)

theorem isLink_join_iff (hproper : name.Proper) (hhere : name ≠ Path.here) (hup : name ≠ Path.up)
    (hdir : fs.locate p = .ok dir) (h : fs.locate (p.join name) = .ok goal) :
    fs.IsLink (p.join name) ↔ ∃ target, fs.entryAt (dir ++ [name]) = some (.link target) := by
  obtain ⟨hname, -⟩ := locate_join hproper hhere hup hdir h
  obtain ⟨hcheck, -⟩ := locate_eq_ok_iff.1 h
  have hfollow : fs.follow maxLinks (fs.base p) p.names = .ok (.found dir) :=
    follow_eq_found_iff.2 (leads_names_of_locate hdir)
  have hplace : fs.placeOfName (p.join name) = .ok (dir ++ [name]) := by
    rw [placeOfName, hcheck, ok_bind, Path.names_join hproper, List.getLast?_concat,
      List.dropLast_concat, base, Path.isAbsolute_join hproper, ← base]
    simp only [hhere, hup, or_self, if_false, if_neg (Nat.not_lt.2 hname.length_le), hfollow,
      ok_bind, hname.directory, if_true]
  constructor
  · rintro ⟨place, target, hplace', htarget⟩
    obtain rfl := Except.ok.inj (hplace.symm.trans hplace')
    exact ⟨target, htarget⟩
  · rintro ⟨target, htarget⟩
    exact ⟨dir ++ [name], target, hplace, htarget⟩

/-! ## More entries -/

theorem entryAt_put (fs : FileSystem) (place q : Place) (e : Entry) :
    (fs.put place e).entryAt q = if q ≠ [] ∧ place = q then some e else fs.entryAt q := by
  cases q with
  | nil => rfl
  | cons name q =>
    show (fs.entries.insert place e).get? (name :: q) = _
    rw [SortedMap.get?_insert]
    by_cases h : place = name :: q
    · rw [if_pos h, if_pos ⟨List.cons_ne_nil _ _, h⟩]
    · rw [if_neg h, if_neg (fun hand => h hand.2)]
      rfl

/-- What is put where nothing was changes no entry that was there. -/
theorem entryAt_put_of_some {q : Place} {e' : Entry} (hfree : fs.entryAt place = none)
    (h : fs.entryAt q = some e') : (fs.put place e).entryAt q = some e' := by
  rw [entryAt_put, if_neg, h]
  rintro ⟨-, rfl⟩
  rw [hfree] at h
  cases h

theorem Leads.put {q : Place} (hfree : fs.entryAt q = none)
    (h : fs.Leads links place names left goal) : (fs.put q e).Leads links place names left goal := by
  have hadmits : ∀ {place name}, fs.Admits place name → (fs.put q e).Admits place name :=
    fun h => ⟨entryAt_put_of_some hfree h.directory, h.ne_here, h.ne_up, h.length_le⟩
  induction h with
  | done => exact .done
  | here hdir _ ih => exact .here (entryAt_put_of_some hfree hdir) ih
  | up hdir _ ih => exact .up (entryAt_put_of_some hfree hdir) ih
  | enter hname he hlink _ ih =>
    exact .enter (hadmits hname) (entryAt_put_of_some hfree he) hlink ih
  | jump hname he _ ih => exact .jump (hadmits hname) (entryAt_put_of_some hfree he) ih

/-- What is found stays where it is when something is put where nothing was. -/
theorem locate_put (hfree : fs.entryAt place = none) (h : fs.locate p = .ok goal) :
    (fs.put place e).locate p = .ok goal := by
  obtain ⟨hcheck, left, hleads⟩ := locate_eq_ok_iff.1 h
  exact locate_eq_ok_iff.2 ⟨hcheck, left, hleads.put hfree⟩

end WorkspaceTrust.FileSystem
