import Mathlib.Data.List.Chain
import WorkspaceTrust.ResourceName

/-!
# Names and DNS subdomains

A DNS subdomain is one label or several, joined by points, and each label
begins and ends with a letter or digit (`IsSubdomain`). A name is checked
as a whole: for its length, its characters and its two ends
(`check_eq_ok_iff`).

What this leaves open is what stands next to a point inside the name.
`Dotted` adds it, letters and digits on either side, and is then a
property of the parts: two texts with a point between them are `Dotted`
exactly if both are (`dotted_append`). So a text is `Dotted` exactly if
its labels are labels (`exists_labels`, `dotted_intercalate`).
-/

namespace WorkspaceTrust.ResourceName

variable {name label : String} {cs as bs : List Char}

/-! ## The check -/

/-- What is checked of the characters of a name. -/
structure Spelled (cs : List Char) : Prop where
  chars : ∀ c ∈ cs, isNameChar c = true
  first : cs.head?.any isAlphanumeric = true
  last : cs.getLast?.any isAlphanumeric = true

theorem Spelled.ne_nil (h : Spelled cs) : cs ≠ [] := by
  rintro rfl
  cases h.first

theorem check_eq_ok_iff :
    check name = .ok () ↔ Spelled name.toList ∧ name.utf8ByteSize ≤ maxLength := by
  constructor
  · intro h
    simp only [check] at h
    split at h
    · cases h
    split at h
    · cases h
    next hlength =>
    split at h
    · cases h
    next hchars =>
    split at h
    · next hends =>
      obtain ⟨hfirst, hlast⟩ := (Bool.and_eq_true ..).mp hends
      exact ⟨⟨by simpa using hchars, hfirst, hlast⟩, Nat.not_lt.1 hlength⟩
    · cases h
  · rintro ⟨hspelled, hlength⟩
    have hchars : name.toList.find? (fun c => !isNameChar c) = none := by
      simpa using hspelled.chars
    simp only [check, if_neg hspelled.ne_nil, if_neg (Nat.not_lt.2 hlength), hchars,
      hspelled.first, hspelled.last, Bool.and_self, if_true]

/-! ## Subdomains -/

/-- A label: letters, digits and hyphens, with a letter or digit at either end. -/
structure IsLabel (label : String) : Prop where
  chars : ∀ c ∈ label.toList, isAlphanumeric c = true ∨ c = '-'
  first : label.toList.head?.any isAlphanumeric = true
  last : label.toList.getLast?.any isAlphanumeric = true

/-- A text of labels with points between them, within the length of a name. -/
structure IsSubdomain (name : String) : Prop where
  labels : ∃ labels : List String, labels ≠ [] ∧ (∀ label ∈ labels, IsLabel label) ∧
    name = ".".intercalate labels
  length_le : name.utf8ByteSize ≤ maxLength

/-! ## Points inside a name -/

/-- Next to a point there is a letter or digit. -/
structure Beside (x y : Char) : Prop where
  after_point : x = '.' → isAlphanumeric y = true
  before_point : y = '.' → isAlphanumeric x = true

/-- Letters and digits at both ends and on both sides of every point. -/
structure Dotted (cs : List Char) : Prop extends Spelled cs where
  points : cs.IsChain Beside

theorem not_isAlphanumeric_point : isAlphanumeric '.' = false := by decide

theorem not_mem_point_of_isLabel (h : IsLabel label) : '.' ∉ label.toList := by
  intro hmem
  rcases h.chars _ hmem with hpoint | hpoint
  · rw [not_isAlphanumeric_point] at hpoint
    cases hpoint
  · cases hpoint

/-- A text without points is a label if it is spelled like a name. -/
theorem dotted_iff_of_no_point (hpoint : '.' ∉ label.toList) :
    Dotted label.toList ↔ IsLabel label := by
  constructor
  · intro h
    refine ⟨fun c hc => ?_, h.first, h.last⟩
    have hchar := h.chars c hc
    have hne : c ≠ '.' := fun heq => hpoint (heq ▸ hc)
    simpa [isNameChar, hne] using hchar
  · intro h
    refine ⟨⟨fun c hc => ?_, h.first, h.last⟩, ?_⟩
    · rcases h.chars c hc with hc | rfl
      · simp [isNameChar, hc]
      · decide
    · refine List.Pairwise.isChain (List.pairwise_iff_forall_sublist.2 fun {x y} hsub => ?_)
      have hmem := hsub.subset
      exact ⟨fun hx => absurd (hx ▸ hmem (by simp)) hpoint,
        fun hy => absurd (hy ▸ hmem (by simp)) hpoint⟩

/-- A point joins two texts that begin and end with letters or digits. -/
theorem dotted_append : Dotted (as ++ '.' :: bs) ↔ Dotted as ∧ Dotted bs := by
  constructor
  · intro h
    obtain ⟨hleft, hright, hjoin⟩ := List.isChain_append.1 h.points
    obtain ⟨hnext, hright⟩ := List.isChain_cons.1 hright
    have hchars := List.forall_mem_append.1 h.chars
    constructor
    · rcases List.eq_nil_or_concat as with rfl | ⟨front, x, rfl⟩
      · exact absurd h.first (by simp [not_isAlphanumeric_point])
      · have hx := (hjoin x (by simp) '.' (by simp)).before_point rfl
        exact ⟨⟨hchars.1, by simpa using h.first, by simpa using hx⟩, hleft⟩
    · cases bs with
      | nil => exact absurd h.last (by simp [not_isAlphanumeric_point])
      | cons y back =>
        have hy := (hnext y (by simp)).after_point rfl
        have hlast := h.last
        rw [List.getLast?_append_cons, List.getLast?_cons_cons] at hlast
        exact ⟨⟨(List.forall_mem_cons.1 hchars.2).2, by simpa using hy, hlast⟩, hright⟩
  · rintro ⟨ha, hb⟩
    refine ⟨⟨?_, ?_, ?_⟩, ?_⟩
    · exact List.forall_mem_append.2 ⟨ha.chars, List.forall_mem_cons.2 ⟨by decide, hb.chars⟩⟩
    · obtain ⟨c, front, rfl⟩ := List.exists_cons_of_ne_nil ha.ne_nil
      simpa using ha.first
    · obtain ⟨y, back, rfl⟩ := List.exists_cons_of_ne_nil hb.ne_nil
      rw [List.getLast?_append_cons, List.getLast?_cons_cons]
      exact hb.last
    · refine List.isChain_append.2 ⟨ha.points, List.isChain_cons.2 ⟨fun y hy => ?_, hb.points⟩,
        fun x hx y hy => ?_⟩
      · have hfirst := hb.first
        rw [Option.mem_def.1 hy] at hfirst
        exact ⟨fun _ => hfirst, fun hpoint => by simp [hpoint, not_isAlphanumeric_point] at hfirst⟩
      · obtain rfl : '.' = y := by simpa using hy
        have hlast := ha.last
        rw [Option.mem_def.1 hx] at hlast
        exact ⟨fun hpoint => by simp [hpoint, not_isAlphanumeric_point] at hlast, fun _ => hlast⟩

/-- Labels with points between them are dotted. -/
theorem dotted_intercalate {labels : List String} (hne : labels ≠ [])
    (h : ∀ label ∈ labels, IsLabel label) : Dotted (".".intercalate labels).toList := by
  induction labels with
  | nil => exact absurd rfl hne
  | cons label labels ih =>
    obtain ⟨hlabel, hlabels⟩ := List.forall_mem_cons.1 h
    have hdotted := (dotted_iff_of_no_point (not_mem_point_of_isLabel hlabel)).2 hlabel
    cases labels with
    | nil => simpa using hdotted
    | cons next labels =>
      have hrest := ih (List.cons_ne_nil _ _) hlabels
      rw [String.intercalate_cons_cons, String.toList_append, String.toList_append,
        List.append_assoc]
      exact dotted_append.2 ⟨hdotted, hrest⟩

/-- A dotted text is made of labels: what stands before its first point is one, and what
stands behind it is dotted again. -/
theorem exists_labels (h : Dotted cs) : ∃ labels : List String, labels ≠ [] ∧
    (∀ label ∈ labels, IsLabel label) ∧ String.ofList cs = ".".intercalate labels := by
  induction hlength : cs.length using Nat.strong_induction_on generalizing cs with
  | _ length ih =>
    by_cases hpoint : '.' ∈ cs
    · obtain ⟨as, bs, rfl, hfirst⟩ := List.eq_append_cons_of_mem hpoint
      obtain ⟨ha, hb⟩ := dotted_append.1 h
      have hshorter : bs.length < length := by
        rw [← hlength, List.length_append, List.length_cons]
        omega
      obtain ⟨labels, hne, hlabels, hbs⟩ := ih bs.length hshorter hb rfl
      have hlabel : IsLabel (String.ofList as) :=
        (dotted_iff_of_no_point (by simpa using hfirst)).1 (by simpa using ha)
      obtain ⟨next, labels, rfl⟩ := List.exists_cons_of_ne_nil hne
      refine ⟨String.ofList as :: next :: labels, List.cons_ne_nil _ _,
        List.forall_mem_cons.2 ⟨hlabel, hlabels⟩, ?_⟩
      rw [String.intercalate_cons_cons, ← hbs, ← String.toList_inj]
      simp
    · have hlabel : IsLabel (String.ofList cs) :=
        (dotted_iff_of_no_point (by simpa using hpoint)).1 (by simpa using h)
      exact ⟨[String.ofList cs], List.cons_ne_nil _ _, List.forall_mem_singleton.2 hlabel,
        by simp⟩

/-- A name is a subdomain exactly if it is accepted and each of its points has letters or
digits on both sides. -/
theorem isSubdomain_iff_dotted :
    IsSubdomain name ↔ Dotted name.toList ∧ name.utf8ByteSize ≤ maxLength := by
  constructor
  · rintro ⟨⟨labels, hne, hlabels, rfl⟩, hlength⟩
    exact ⟨dotted_intercalate hne hlabels, hlength⟩
  · rintro ⟨hdotted, hlength⟩
    obtain ⟨labels, hne, hlabels, hname⟩ := exists_labels hdotted
    rw [String.ofList_toList] at hname
    exact ⟨⟨labels, hne, hlabels, hname⟩, hlength⟩

end WorkspaceTrust.ResourceName
