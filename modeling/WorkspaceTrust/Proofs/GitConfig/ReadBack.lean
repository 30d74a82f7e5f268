import Mathlib.Data.List.DropRight
import WorkspaceTrust.Proofs.Provision.HostConfigs

/-!
# Reading git settings back

Git settings are read line by line: a header line and the setting line
behind it are the stanza of one host, and `readHosts` gives the hosts
again from a text that is made of such pairs and of nothing else.

A host is written as it is called, and a file can have any name without
a slash. A line break in a name ends the line in the middle of it, and
what comes behind the break is a line of its own, of whatever kind it
likes. Every break makes one line more (`length_lines_render`); without
breaks the lines are just those of the stanzas (`lines_render`). So the
hosts are read back exactly if none of them has a break
(`readHosts_hostConfigs`).
-/

namespace WorkspaceTrust.GitConfig

variable {host directory : String} {hosts : List String} {line : List Char}
  {ls : List (List Char)}

/-! ## Lines -/

/-- The lines of a text. The last one need not be ended by a line break. -/
def lines : List Char → List (List Char)
  | [] => []
  | c :: cs =>
      if c = '\n' then [] :: lines cs
      else match lines cs with
        | [] => [[c]]
        | line :: ls => (c :: line) :: ls

theorem lines_append_break (h : '\n' ∉ line) (cs : List Char) :
    lines (line ++ '\n' :: cs) = line :: lines cs := by
  induction line with
  | nil => exact if_pos rfl
  | cons c line ih =>
    have hc : c ≠ '\n' := fun hbreak => h (hbreak ▸ List.mem_cons_self)
    have hline := ih fun hmem => h (List.mem_cons_of_mem c hmem)
    rw [List.cons_append, lines, if_neg hc, hline]

/-- Each line break ends a line. -/
theorem length_lines_append_break (as bs : List Char) :
    (lines (as ++ '\n' :: bs)).length = as.count '\n' + 1 + (lines bs).length := by
  induction as with
  | nil => simp [lines, Nat.add_comm]
  | cons c as ih =>
    rw [List.cons_append, lines]
    by_cases hc : c = '\n'
    · rw [if_pos hc, List.length_cons, ih, hc, List.count_cons_self]
      omega
    · rw [if_neg hc, List.count_cons_of_ne hc, ← ih]
      cases hrest : lines (as ++ '\n' :: bs) with
      | nil =>
        rw [hrest, List.length_nil] at ih
        omega
      | cons line ls => rfl

/-! ## Stanzas -/

/-- The two lines of the stanza of a host. -/
def stanzaLines (directory host : String) : List (List Char) :=
  [(header host).toList, (setting host directory).toList]

theorem toList_stanza (host directory : String) : (stanza host directory).toList =
    (header host).toList ++ '\n' :: ((setting host directory).toList ++ ['\n']) := by
  simp [stanza]

theorem toList_render_cons (host : String) (hosts : List String) (directory : String) :
    (render (host :: hosts) directory).toList = (header host).toList ++
      '\n' :: ((setting host directory).toList ++ '\n' :: (render hosts directory).toList) := by
  simp [render, toList_stanza]

theorem toList_header (host : String) :
    (header host).toList = "[http \"https://".toList ++ (host.toList ++ "*\"]".toList) := by
  have happend : header host = "[http \"https://" ++ host ++ "*\"]" := rfl
  rw [happend, String.toList_append, String.toList_append, List.append_assoc]

theorem count_header (host : String) :
    (header host).toList.count '\n' = host.toList.count '\n' := by
  have hopening : "[http \"https://".toList.count '\n' = 0 := by decide
  have hclosing : "*\"]".toList.count '\n' = 0 := by decide
  rw [toList_header, List.count_append, List.count_append, hopening, hclosing, Nat.zero_add,
    Nat.add_zero]

theorem count_setting (hdirectory : '\n' ∉ directory.toList) (host : String) :
    (setting host directory).toList.count '\n' = host.toList.count '\n' := by
  have hkey : "\tsslCAInfo = ".toList.count '\n' = 0 := by decide
  have happend : setting host directory = "\tsslCAInfo = " ++ directory ++ host := rfl
  rw [happend, String.toList_append, String.toList_append, List.count_append, List.count_append,
    hkey, List.count_eq_zero.2 hdirectory, Nat.zero_add]

/-- The settings have two lines for each host, and for each line break in a host two more. -/
theorem length_lines_render (hdirectory : '\n' ∉ directory.toList) (hosts : List String) :
    (lines (render hosts directory).toList).length =
      2 * hosts.length + 2 * (hosts.flatMap String.toList).count '\n' := by
  induction hosts with
  | nil => rfl
  | cons host hosts ih =>
    rw [toList_render_cons, length_lines_append_break, length_lines_append_break, ih,
      count_header, count_setting hdirectory, List.flatMap_cons, List.count_append,
      List.length_cons]
    omega

/-- Without line breaks in the hosts the lines are those of their stanzas. -/
theorem lines_render (hdirectory : '\n' ∉ directory.toList)
    (h : ∀ host ∈ hosts, '\n' ∉ host.toList) :
    lines (render hosts directory).toList = hosts.flatMap (stanzaLines directory) := by
  induction hosts with
  | nil => rfl
  | cons host hosts ih =>
    obtain ⟨hhost, hhosts⟩ := List.forall_mem_cons.1 h
    have hheader : '\n' ∉ (header host).toList := by
      rwa [← List.count_eq_zero, count_header, List.count_eq_zero]
    have hsetting : '\n' ∉ (setting host directory).toList := by
      rwa [← List.count_eq_zero, count_setting hdirectory, List.count_eq_zero]
    rw [toList_render_cons, lines_append_break hheader, lines_append_break hsetting, ih hhosts]
    rfl

/-! ## Reading -/

/-- The host that a header line names. -/
def hostOf? (line : List Char) : Option String :=
  let host := String.ofList ((line.drop "[http \"https://".length).rdrop "*\"]".length)
  if (header host).toList = line then some host else none

/-- The hosts of a list of stanzas; none if anything else is among the lines. -/
def readHosts (directory : String) : List (List Char) → Option (List String)
  | [] => some []
  | [_] => none
  | first :: second :: ls => do
      let host ← hostOf? first
      if second = (setting host directory).toList then
        some (host :: (← readHosts directory ls))
      else none

theorem hostOf?_header (host : String) : hostOf? (header host).toList = some host := by
  have hhost : String.ofList (((header host).toList.drop "[http \"https://".length).rdrop
      "*\"]".length) = host := by
    rw [toList_header, ← String.length_toList, ← String.length_toList, List.drop_left,
      List.rdrop_append_length, String.ofList_toList]
  rw [hostOf?, hhost]
  exact if_pos rfl

theorem eq_header_of_hostOf? (h : hostOf? line = some host) : line = (header host).toList := by
  simp only [hostOf?] at h
  split at h
  · next hline =>
    cases h
    exact hline.symm
  · cases h

theorem readHosts_eq_some_iff :
    readHosts directory ls = some hosts ↔ ls = hosts.flatMap (stanzaLines directory) := by
  constructor
  · intro h
    induction ls using readHosts.induct generalizing hosts with
    | case1 =>
      cases h
      rfl
    | case2 => cases h
    | case3 first second ls ih =>
      simp only [readHosts, Option.bind_eq_bind, Option.bind_eq_some_iff] at h
      obtain ⟨host, hfirst, h⟩ := h
      split at h
      · next hsecond =>
        obtain ⟨others, hothers, h⟩ := Option.bind_eq_some_iff.1 h
        cases h
        rw [List.flatMap_cons, ← ih hothers, eq_header_of_hostOf? hfirst, hsecond]
        rfl
      · cases h
  · rintro rfl
    induction hosts with
    | nil => rfl
    | cons host hosts ih =>
      -- the setting line has to be that of the host that the header names
      rw [List.flatMap_cons, stanzaLines, List.cons_append, List.cons_append, List.nil_append,
        readHosts, hostOf?_header, Option.bind_eq_bind, Option.bind_some, if_pos rfl, ih]
      rfl

theorem length_flatMap_stanzaLines (directory : String) (hosts : List String) :
    (hosts.flatMap (stanzaLines directory)).length = 2 * hosts.length := by
  induction hosts with
  | nil => rfl
  | cons host hosts ih =>
    rw [List.flatMap_cons, List.length_append, ih, List.length_cons, stanzaLines]
    simp only [List.length_cons, List.length_nil]
    omega

/-- There are two lines for each host exactly if no host has a line break. -/
theorem length_lines_render_iff (hdirectory : '\n' ∉ directory.toList) :
    (lines (render hosts directory).toList).length = 2 * hosts.length ↔
      ∀ host ∈ hosts, '\n' ∉ host.toList := by
  have hbreaks : (hosts.flatMap String.toList).count '\n' = 0 ↔
      ∀ host ∈ hosts, '\n' ∉ host.toList := by
    simp [List.count_eq_zero]
  rw [length_lines_render hdirectory, ← hbreaks]
  omega

/-- The hosts are read back exactly if none of them has a line break. -/
theorem readHosts_render_iff (hdirectory : '\n' ∉ directory.toList) :
    readHosts directory (lines (render hosts directory).toList) = some hosts ↔
      ∀ host ∈ hosts, '\n' ∉ host.toList := by
  rw [readHosts_eq_some_iff]
  constructor
  · -- a host may look like a header or a setting, so the lines are only counted
    intro h
    rw [← length_lines_render_iff hdirectory, h, length_flatMap_stanzaLines]
  · exact lines_render hdirectory

end GitConfig

namespace VcsCertificateProvisioner

open GitConfig

/-- The discovered hosts, as the git settings name them, are read back from the settings in
their order, and the settings have two lines for each of them, exactly if no name of a
certificate has a line break. -/
theorem readHosts_hostConfigs (fs : FileSystem) (p : VcsCertificateProvisioner) :
    let hosts := (p.cache.store.listedNames fs).filter fun name =>
      (p.cache.load fs).1.contains name
    let settings := lines (p.hostConfigs fs).1.toList
    (readHosts "/etc/che/git/cert/" settings = some hosts ↔
      ∀ host ∈ hosts, '\n' ∉ host.toList) ∧
    (settings.length = 2 * hosts.length ↔ ∀ host ∈ hosts, '\n' ∉ host.toList) := by
  intro hosts settings
  have hdirectory : '\n' ∉ certificateDirectory.toList := by decide
  have hsettings : settings = lines (render hosts certificateDirectory).toList :=
    congrArg (fun text : String => lines text.toList) (Site.settings_eq ⟨fs, p⟩)
  rw [hsettings]
  exact ⟨readHosts_render_iff hdirectory, length_lines_render_iff hdirectory⟩

/-- A file whose name ends the header, turns off the verification of certificates and begins a
header again. -/
def breakingFile : String := "a*\"]\n\tsslVerify = false\n[http \"https:b"

/-- A directory with that file for a certificate. -/
def breakingCertificate : FileSystem where
  entries := .ofList [([utf8 "certs"], .directory),
    ([utf8 "certs", utf8 breakingFile], .file (utf8 "certificate"))]
  workingDirectory := []

/-- The name of a file brings a setting of its own into the settings. -/
theorem settings_of_breaking_name :
    let settings := lines (ofCerts.hostConfigs breakingCertificate).1.toList
    (ofCerts.cache.store.listedNames breakingCertificate).filter (fun name =>
      (ofCerts.cache.load breakingCertificate).1.contains name) = [breakingFile] ∧
    settings.take 2 = ["[http \"https://a*\"]".toList, "\tsslVerify = false".toList] ∧
    settings.length = 6 ∧
    readHosts "/etc/che/git/cert/" settings = none := by
  intro settings
  have hhosts : (ofCerts.cache.store.listedNames breakingCertificate).filter (fun name =>
      (ofCerts.cache.load breakingCertificate).1.contains name) = [breakingFile] := by
    decide +kernel
  have hrender : (ofCerts.hostConfigs breakingCertificate).1 =
      render [breakingFile] certificateDirectory := by
    rw [← hhosts]
    exact Site.settings_eq ⟨breakingCertificate, ofCerts⟩
  have hsettings : settings = lines (render [breakingFile] certificateDirectory).toList :=
    congrArg (fun text : String => lines text.toList) hrender
  have hlines : lines (render [breakingFile] certificateDirectory).toList =
      ["[http \"https://a*\"]".toList, "\tsslVerify = false".toList,
        "[http \"https:b*\"]".toList, "\tsslCAInfo = /etc/che/git/cert/a*\"]".toList,
        "\tsslVerify = false".toList, "[http \"https:b".toList] := by decide +kernel
  rw [hsettings, hlines]
  exact ⟨hhosts, rfl, rfl, by decide +kernel⟩

end VcsCertificateProvisioner

end WorkspaceTrust
