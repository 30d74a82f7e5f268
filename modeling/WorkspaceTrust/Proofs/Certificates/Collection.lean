import Mathlib.Data.List.Induction
import Mathlib.Data.List.Nodup
import WorkspaceTrust.Certificates
import WorkspaceTrust.Proofs.Result

/-!
# Which certificates are collected

A path gives a certificate if its last name and its content are text
(`Certifies`); any other path is `Unusable`. Certificates are collected
from the front: one more path at the end of a list adds its certificate,
over an earlier one of the same name (`readCertificates_concat`), or
changes nothing (`readCertificates_concat_of_unusable`).

So the certificate of a name is that of the last path which gives one,
and not of the last path with this name (`get?_readCertificates`). What
the whole list gives follows from this alone: how two lists are put
together, that unusable paths do not matter, wherever they are, and that
the order does not matter if no two names are equal
(`readCertificates_best_effort`).
-/

namespace WorkspaceTrust

/-- Bytes that spell a text are those of the text. -/
theorem utf8_of_textOfBytes {bytes : List UInt8} {s : String} (h : textOfBytes bytes = some s) :
    utf8 s = bytes := by
  rw [textOfBytes, String.fromUTF8?] at h
  split at h
  · cases h
    rfl
  · cases h

namespace FileSystem

variable {fs : FileSystem} {p : Path} {paths more : List Path} {name content : String}

/-- The last name of the path is this text, and so is the content of the file there. -/
structure Certifies (fs : FileSystem) (p : Path) (name content : String) : Prop where
  name : p.fileName?.bind textOfBytes = some name
  content : fs.readText p = .ok content

/-- Why a path gives no certificate. -/
inductive Unusable (fs : FileSystem) (p : Path) : Prop
  | unreadable {fault : Fault} (h : fs.read p = .error fault)
  | missing {fault : Fault} (h : fs.locate p = .error fault)
  | directory (h : fs.entry? p = some .directory)
  | name (h : p.fileName?.bind textOfBytes = none)
  | content {bytes : List UInt8} (h : fs.read p = .ok bytes) (hbytes : textOfBytes bytes = none)

/-! ## Single paths -/

theorem readCertificate_eq_some_iff :
    fs.readCertificate p = some (name, content) ↔ fs.Certifies p name content := by
  constructor
  · intro h
    obtain ⟨name', hname, h⟩ := Option.bind_eq_some_iff.1 h
    obtain ⟨content', hcontent, h⟩ := Option.bind_eq_some_iff.1 h
    cases h
    refine ⟨hname, ?_⟩
    cases hread : fs.readText p with
    | error fault => simp [hread, Except.toOption] at hcontent
    | ok text => simpa [hread, Except.toOption] using hcontent
  · intro h
    simp [readCertificate, h.name, h.content, Except.toOption]

theorem readText_of_unreadable {fault : Fault} (h : fs.read p = .error fault) :
    fs.readText p = .error fault := by
  rw [readText, h]
  rfl

theorem read_of_missing {fault : Fault} (h : fs.locate p = .error fault) :
    fs.read p = .error fault := by
  rw [read, h]
  rfl

theorem read_of_directory (h : fs.entry? p = some .directory) :
    fs.read p = .error .isDirectory := by
  unfold entry? at h
  split at h
  · next place hplace => rw [read, hplace, ok_bind, h]
  · cases h

/-- A path gives a certificate or is unusable. -/
theorem unusable_iff : fs.Unusable p ↔ ∀ name content, ¬ fs.Certifies p name content := by
  constructor
  · intro hunusable name content h
    have hno : ∀ {fault}, fs.read p ≠ .error fault := fun hread => by
      have hcontent := h.content
      rw [readText_of_unreadable hread] at hcontent
      cases hcontent
    cases hunusable with
    | unreadable hread => exact hno hread
    | missing hmissing => exact hno (read_of_missing hmissing)
    | directory hdirectory => exact hno (read_of_directory hdirectory)
    | name hname => exact absurd (hname.symm.trans h.name) nofun
    | content hread hbytes =>
      have hcontent := h.content
      rw [readText, hread, ok_bind, decodeText, hbytes] at hcontent
      cases hcontent
  · intro h
    cases hname : p.fileName?.bind textOfBytes with
    | none => exact .name hname
    | some name =>
      cases hread : fs.read p with
      | error fault => exact .unreadable hread
      | ok bytes =>
        cases hbytes : textOfBytes bytes with
        | none => exact .content hread hbytes
        | some content =>
          refine absurd ⟨hname, ?_⟩ (h name content)
          rw [readText, hread, ok_bind, decodeText, hbytes]

theorem readCertificate_of_unusable (h : fs.Unusable p) : fs.readCertificate p = none := by
  cases hread : fs.readCertificate p with
  | none => rfl
  | some entry =>
    exact absurd (readCertificate_eq_some_iff.1 hread) (unusable_iff.1 h entry.1 entry.2)

/-! ## One more path -/

theorem readCertificates_concat (paths : List Path) (h : fs.Certifies p name content) :
    fs.readCertificates (paths ++ [p]) = (fs.readCertificates paths).insert name content := by
  have hread := readCertificate_eq_some_iff.2 h
  simp [readCertificates, SortedMap.ofList, hread]

theorem readCertificates_concat_of_unusable (paths : List Path) (h : fs.Unusable p) :
    fs.readCertificates (paths ++ [p]) = fs.readCertificates paths := by
  simp [readCertificates, readCertificate_of_unusable h]

/-! ## The last path of a name -/

/-- The last of the paths that give a certificate of this name gives this content. -/
def LastCertifies (fs : FileSystem) (paths : List Path) (name content : String) : Prop :=
  ∃ before p after, paths = before ++ p :: after ∧ fs.Certifies p name content ∧
    ∀ q ∈ after, ∀ other, ¬ fs.Certifies q name other

theorem not_lastCertifies_nil : ¬ fs.LastCertifies [] name content := by
  rintro ⟨before, p, after, heq, -⟩
  simp at heq

theorem lastCertifies_concat : fs.LastCertifies (paths ++ [p]) name content ↔
    fs.Certifies p name content ∨
      (∀ other, ¬ fs.Certifies p name other) ∧ fs.LastCertifies paths name content := by
  constructor
  · rintro ⟨before, q, after, heq, hq, hafter⟩
    rcases List.eq_nil_or_concat' after with rfl | ⟨after, last, rfl⟩
    · obtain ⟨-, hpq⟩ := List.append_inj' heq rfl
      obtain rfl := List.singleton_inj.1 hpq
      exact .inl hq
    · rw [← List.cons_append, ← List.append_assoc] at heq
      obtain ⟨hpaths, hlast⟩ := List.append_inj' heq rfl
      obtain rfl := List.singleton_inj.1 hlast
      obtain ⟨hafter, hp⟩ := List.forall_mem_append.1 hafter
      exact .inr ⟨hp p (List.mem_singleton_self p), before, q, after, hpaths, hq, hafter⟩
  · rintro (hp | ⟨hp, before, q, after, rfl, hq, hafter⟩)
    · exact ⟨paths, p, [], rfl, hp, nofun⟩
    · exact ⟨before, q, after ++ [p], by simp, hq,
        List.forall_mem_append.2 ⟨hafter, List.forall_mem_singleton.2 hp⟩⟩

theorem get?_readCertificates (fs : FileSystem) (paths : List Path) (name content : String) :
    (fs.readCertificates paths).get? name = some content ↔
      fs.LastCertifies paths name content := by
  induction paths using List.reverseRecOn with
  | nil => exact ⟨nofun, fun h => absurd h not_lastCertifies_nil⟩
  | append_singleton paths p ih =>
    rw [lastCertifies_concat]
    by_cases hp : ∃ n c, fs.Certifies p n c
    · obtain ⟨n, c, hp⟩ := hp
      have honly : ∀ {n' c'}, fs.Certifies p n' c' → n' = n ∧ c' = c := fun h =>
        ⟨Option.some.inj (h.name.symm.trans hp.name),
          Except.ok.inj (h.content.symm.trans hp.content)⟩
      rw [readCertificates_concat paths hp, SortedMap.get?_insert]
      by_cases hn : n = name
      · subst hn
        rw [if_pos rfl]
        constructor
        · intro hc
          cases hc
          exact .inl hp
        · rintro (h | ⟨hnone, -⟩)
          · rw [(honly h).2]
          · exact absurd hp (hnone c)
      · have hnone : ∀ other, ¬ fs.Certifies p name other := fun other h => hn (honly h).1.symm
        rw [if_neg hn, ih]
        exact ⟨fun h => .inr ⟨hnone, h⟩, fun h => (h.resolve_left (hnone content)).2⟩
    · have hnone : ∀ n c, ¬ fs.Certifies p n c := fun n c h => hp ⟨n, c, h⟩
      rw [readCertificates_concat_of_unusable paths (unusable_iff.2 hnone), ih]
      exact ⟨fun h => .inr ⟨hnone name, h⟩, fun h => (h.resolve_left (hnone name content)).2⟩

/-! ## Lists of paths -/

/-- The second list is the first with unusable paths put in anywhere. -/
inductive Spoiled (fs : FileSystem) : List Path → List Path → Prop
  | nil : Spoiled fs [] []
  | keep {p : Path} {paths more : List Path} (h : Spoiled fs paths more) :
      Spoiled fs (p :: paths) (p :: more)
  | insert {p : Path} {paths more : List Path} (hp : fs.Unusable p) (h : Spoiled fs paths more) :
      Spoiled fs paths (p :: more)

theorem Spoiled.filterMap_eq (h : fs.Spoiled paths more) :
    more.filterMap fs.readCertificate = paths.filterMap fs.readCertificate := by
  induction h with
  | nil => rfl
  | keep _ ih => rw [List.filterMap_cons, List.filterMap_cons, ih]
  | insert hp _ ih => rw [List.filterMap_cons_none (readCertificate_of_unusable hp), ih]

theorem readCertificates_append (fs : FileSystem) (paths more : List Path) :
    fs.readCertificates (paths ++ more) =
      (fs.readCertificates paths).override (fs.readCertificates more) := by
  refine SortedMap.ext fun k => ?_
  rw [SortedMap.get?_override, readCertificates, List.filterMap_append, SortedMap.get?_ofList,
    List.reverse_append, SortedMap.lookup_append, ← SortedMap.get?_ofList, ← SortedMap.get?_ofList]
  rfl

/-- Where no two paths have a name in common, every path that gives a certificate is the last
of its name. -/
theorem lastCertifies_iff_of_nodup (h : (paths.filterMap Path.fileName?).Nodup) :
    fs.LastCertifies paths name content ↔ ∃ p ∈ paths, fs.Certifies p name content := by
  constructor
  · rintro ⟨before, p, after, rfl, hp, -⟩
    exact ⟨p, by simp, hp⟩
  · rintro ⟨p, hmem, hp⟩
    obtain ⟨before, after, rfl⟩ := List.append_of_mem hmem
    refine ⟨before, p, after, rfl, hp, fun q hq other hother => ?_⟩
    -- Both paths end in the bytes of the name, so that these come twice.
    have hbytes : ∀ {r c}, fs.Certifies r name c → r.fileName? = some (utf8 name) := fun hr => by
      obtain ⟨bytes, hr, hname⟩ := Option.bind_eq_some_iff.1 hr.name
      rw [hr, utf8_of_textOfBytes hname]
    have hafter : (p :: after).filterMap Path.fileName? =
        utf8 name :: after.filterMap Path.fileName? := List.filterMap_cons_some (hbytes hp)
    rw [List.filterMap_append, hafter] at h
    have hnot := (List.nodup_cons.1 (List.nodup_append.1 h).2.1).1
    exact hnot (List.mem_filterMap.2 ⟨q, hq, hbytes hother⟩)

theorem readCertificates_perm (hperm : more.Perm paths)
    (h : (paths.filterMap Path.fileName?).Nodup) :
    fs.readCertificates more = fs.readCertificates paths := by
  have hmore : (more.filterMap Path.fileName?).Nodup := (hperm.filterMap _).nodup_iff.2 h
  refine SortedMap.ext fun name => Option.ext fun content => ?_
  rw [get?_readCertificates, get?_readCertificates, lastCertifies_iff_of_nodup h,
    lastCertifies_iff_of_nodup hmore]
  simp only [hperm.mem_iff]

/-- What is collected from some paths: under each name the content that the last path gives
which gives one. What two lists give is put together with the second over the first, unusable
paths change nothing wherever they are, and neither does the order if no two names are equal. -/
theorem readCertificates_best_effort (fs : FileSystem) (paths : List Path) :
    (∀ name content, (fs.readCertificates paths).get? name = some content ↔
      fs.LastCertifies paths name content) ∧
    (∀ more, fs.readCertificates (paths ++ more) =
      (fs.readCertificates paths).override (fs.readCertificates more)) ∧
    (∀ more, fs.Spoiled paths more → fs.readCertificates more = fs.readCertificates paths) ∧
    ∀ more : List Path, more.Perm paths → (paths.filterMap Path.fileName?).Nodup →
      fs.readCertificates more = fs.readCertificates paths :=
  ⟨fs.get?_readCertificates paths, fs.readCertificates_append paths,
    fun _ h => congrArg SortedMap.ofList h.filterMap_eq,
    fun _ hperm h => readCertificates_perm hperm h⟩

/-- Two certificates of one name, a file of this name that is not text, and another
certificate. -/
def overlapping : FileSystem where
  entries := .ofList [([utf8 "a"], .directory),
    ([utf8 "a", utf8 "host"], .file (utf8 "first")),
    ([utf8 "b"], .directory),
    ([utf8 "b", utf8 "host"], .file (utf8 "second")),
    ([utf8 "c"], .directory),
    ([utf8 "c", utf8 "host"], .file [255]),
    ([utf8 "c", utf8 "other"], .file (utf8 "third"))]
  workingDirectory := []

theorem readCertificates_best_effort_overlapping :
    let a := Path.ofString "a/host"
    let b := Path.ofString "b/host"
    let other := Path.ofString "c/other"
    let spoiled := [a, .ofString "gone", b, .ofString "c/host", .ofString "c", other]
    overlapping.Spoiled [a, b, other] spoiled ∧
      overlapping.LastCertifies [a, b, other] "host" "second" ∧
      (overlapping.readCertificates spoiled).entries = [("host", "second"), ("other", "third")] ∧
      overlapping.readCertificates [other, b] = overlapping.readCertificates [b, other] := by
  intro a b other spoiled
  have hgone : overlapping.Unusable (.ofString "gone") :=
    @Unusable.missing _ _ .notFound (by decide +kernel)
  have hbytes : overlapping.Unusable (.ofString "c/host") :=
    @Unusable.content _ _ [255] (by decide +kernel) (by decide +kernel)
  have hdirectory : overlapping.Unusable (.ofString "c") := .directory (by decide +kernel)
  have hspoiled : overlapping.Spoiled [a, b, other] spoiled :=
    .keep (.insert hgone (.keep (.insert hbytes (.insert hdirectory (.keep .nil)))))
  have hentries : (overlapping.readCertificates [a, b, other]).entries =
      [("host", "second"), ("other", "third")] := by decide +kernel
  obtain ⟨hlast, -, hsame, -⟩ := readCertificates_best_effort overlapping [a, b, other]
  obtain ⟨-, -, -, hperm⟩ := readCertificates_best_effort overlapping [b, other]
  refine ⟨hspoiled, (hlast _ _).1 ?_, (congrArg _ (hsame _ hspoiled)).trans hentries,
    hperm _ (.swap ..) (by decide +kernel)⟩
  rw [SortedMap.get?, hentries]
  rfl

end FileSystem

end WorkspaceTrust
