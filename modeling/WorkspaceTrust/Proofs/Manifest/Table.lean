import WorkspaceTrust.Proofs.Manifest.Codec

/-!
# What becomes of the fields of a record

A record that is read and written again (`rewrite`) comes back with its
known fields changed as their rules say and with all others as they were.
A `Rule` says what is written for a field that is absent and which value
of it is not written; a table lists the known fields of a record with
their rules, and `RecordKept` compares two objects by such a table.

`Keeps` is what is to be shown of every reader and its writer. A record
is put together from its fields: each of them `Passes`, which is one
lemma for each rule (`passes_required` to `passes_texts`), and
`keeps_written` does the rest.
-/

namespace WorkspaceTrust

namespace Shape

variable {α : Type}

/-! ## Tables -/

/-- How a field of a record is written. -/
inductive Rule where
  /-- The field is always there. -/
  | required
  /-- The field is written with this value if it is absent. -/
  | filled (default : Json)
  /-- The field is not written if it has this value. -/
  | omitted (blank : Json)

/-- What becomes of the value of a field by a rule; none stands for an absent field. -/
inductive Becomes (Kept : Json → Json → Prop) : Rule → Option Json → Option Json → Prop
  | filled (default : Json) : Becomes Kept (.filled default) none (some default)
  | absent (blank : Json) : Becomes Kept (.omitted blank) none none
  | dropped (blank : Json) : Becomes Kept (.omitted blank) (some blank) none
  | kept {rule : Rule} {v w : Json} (hrule : rule ≠ .omitted v) (h : Kept v w) :
      Becomes Kept rule (some v) (some w)

/-- A known field of a record, and how its value before compares with that after. -/
structure Field where
  key : String
  rule : Rule
  Kept : Json → Json → Prop

/-- Two objects agree but for the fields of a table, and these are changed as their rules
say. -/
inductive RecordKept (table : List Field) : Json → Json → Prop
  | intro {m n : SortedMap String Json}
      (known : ∀ f ∈ table, Becomes f.Kept f.rule (m.get? f.key) (n.get? f.key))
      (others : ∀ k ∉ table.map Field.key, n.get? k = m.get? k) :
      RecordKept table (.object m) (.object n)

/-- Two lists agree item by item. -/
inductive ItemsKept (Kept : Json → Json → Prop) : Json → Json → Prop
  | intro {vs ws : List Json} (items : List.Forall₂ Kept vs ws) : ItemsKept Kept (.arr vs) (.arr ws)

/-- The value as it is written after it has been read. -/
def rewrite (read : Reader α) (write : α → Json) : Reader Json :=
  fun v => (read v).map fun a => (write a).sortKeys

/-- What is read of an ordered value is written with that value kept, and read again. -/
def Keeps (Kept : Json → Json → Prop) (read : Reader α) (write : α → Json) : Prop :=
  ∀ ⦃v : Json⦄ ⦃a : α⦄, v.Ordered → read v = .ok a →
    Kept v (write a).sortKeys ∧ read (write a).sortKeys = .ok a

theorem Keeps.rewrite {Kept : Json → Json → Prop} {read : Reader α} {write : α → Json}
    (hkeeps : Keeps Kept read write) {v w : Json} (hv : v.Ordered)
    (h : Shape.rewrite read write v = .ok w) : Kept v w ∧ Shape.rewrite read write w = .ok w := by
  obtain ⟨a, hread, rfl⟩ := map_eq_ok.1 h
  obtain ⟨hkept, hagain⟩ := hkeeps hv hread
  exact ⟨hkept, map_eq_ok.2 ⟨a, hagain, rfl⟩⟩

/-! ## Values -/

variable {Kept : Json → Json → Prop} {read : Reader α} {write : α → Json}

theorem eq_str_of_text {v : Json} {s : String} (h : text v = .ok s) : v = .str s := by
  cases v <;> cases h
  rfl

theorem keeps_text : Keeps Eq text .str := fun _ _ _ h => ⟨eq_str_of_text h, rfl⟩

theorem keeps_flag : Keeps Eq flag .bool := by
  intro v b _ h
  cases v <;> cases h
  exact ⟨rfl, rfl⟩

theorem keeps_list (hkeeps : Keeps Kept read write) :
    Keeps (ItemsKept Kept) (list read) fun as => .arr (as.map write) := by
  intro v as hv h
  cases v with
  | arr vs =>
    have hitems : ∀ v ∈ vs, v.Ordered := Json.orderedItems_iff.1 hv
    rw [Json.sortKeys, Json.sortKeysItems_eq_map, List.map_map]
    refine ⟨.intro (List.forall₂_map_right_iff.2 ?_), mapM_eq_ok fun a ha => ?_⟩
    · have hread := (List.forall₂_and_left vs as).2 ⟨hitems, forall₂_of_mapM_eq_ok h⟩
      exact hread.imp fun v a hva => (hkeeps hva.1 hva.2).1
    · obtain ⟨v, hv, hva⟩ := exists_of_mapM_eq_ok h a ha
      exact (hkeeps (hitems v hv) hva).2
  | _ => cases h

theorem keeps_texts : Keeps Eq (map text) texts := by
  intro v m hv h
  have hobject : v = texts m := by
    cases v with
    | obj members =>
      obtain ⟨entries, hentries, heq⟩ := bind_eq_ok.1 h
      obtain rfl : members = entries.map fun e => (e.1, Json.str e.2) := by
        rw [← List.forall₂_eq_eq_eq, List.forall₂_map_right_iff]
        refine (forall₂_of_mapM_eq_ok hentries).imp fun p e he => ?_
        obtain ⟨s, hs, rfl⟩ := map_eq_ok.1 he
        exact congrArg (p.1, ·) (eq_str_of_text hs)
      have hkeys : entries.Pairwise fun p q => KeyOrder.before p.1 q.1 = true :=
        List.pairwise_map.1 hv.1
      obtain rfl : (⟨entries, hkeys⟩ : SortedMap String String) = m := by
        rw [← Except.ok.inj heq, ← SortedMap.ofList_entries ⟨entries, hkeys⟩]
      rfl
    | _ => cases h
  rw [← hobject, Json.sortKeys_of_ordered v hv]
  exact ⟨rfl, h⟩

/-! ## Fields -/

/-- What becomes of a field is as its rule says, and the field is then read as `a?`. -/
structure Passes (Kept : Json → Json → Prop) (rule : Rule) (read : Reader α) (v? w? : Option Json)
    (a? : Option α) : Prop where
  becomes : Becomes Kept rule v? w?
  again : ∀ {fields : SortedMap String Json} {key : String}, fields.get? key = w? →
    optional fields key read = .ok a?

theorem optional_of_get?_eq_none {fields : SortedMap String Json} {key : String}
    (hget : fields.get? key = none) : optional fields key read = .ok none := by
  rw [optional, hget]

theorem optional_of_get?_eq_some {fields : SortedMap String Json} {key : String} {v : Json} {a : α}
    (hget : fields.get? key = some v) (h : read v = .ok a) :
    optional fields key read = .ok (some a) := by
  rw [optional, hget]
  exact map_eq_ok.2 ⟨a, h, rfl⟩

theorem passes_absent (blank : Json) : Passes Kept (.omitted blank) read none none none :=
  ⟨.absent blank, optional_of_get?_eq_none⟩

theorem passes_dropped (blank : Json) : Passes Kept (.omitted blank) read (some blank) none none :=
  ⟨.dropped blank, optional_of_get?_eq_none⟩

theorem passes_kept {rule : Rule} {v w : Json} {a : α} (hrule : rule ≠ .omitted v)
    (hkept : Kept v w) (hagain : read w = .ok a) : Passes Kept rule read (some v) (some w) (some a) :=
  ⟨.kept hrule hkept, fun hget => optional_of_get?_eq_some hget hagain⟩

section Rules

variable {m : SortedMap String Json} {key : String}

theorem ordered_of_get? {v : Json} (hm : (Json.object m).Ordered) (h : m.get? key = some v) :
    v.Ordered :=
  Json.orderedMembers_iff.1 hm.2 (key, v) (SortedMap.get?_eq_some_iff.1 h)

/-- A field has been read: either it is absent, or its value has been read. -/
theorem optional_cases {a? : Option α} (hm : (Json.object m).Ordered)
    (h : optional m key read = .ok a?) :
    m.get? key = none ∧ a? = none ∨
      ∃ v a, m.get? key = some v ∧ a? = some a ∧ v.Ordered ∧ read v = .ok a := by
  rw [optional] at h
  split at h
  · next hget => exact .inl ⟨hget, (Except.ok.inj h).symm⟩
  · next v hget =>
    obtain ⟨a, hread, rfl⟩ := map_eq_ok.1 h
    exact .inr ⟨v, a, hget, rfl, ordered_of_get? hm hget, hread⟩

theorem passes_required (hkeeps : Keeps Kept read write) (hm : (Json.object m).Ordered) {a : α}
    (h : optional m key read = .ok (some a)) :
    Passes Kept .required read (m.get? key) ((some (write a)).map Json.sortKeys) (some a) := by
  obtain ⟨-, hnone⟩ | ⟨v, b, hget, heq, hv, hread⟩ := optional_cases hm h
  · cases hnone
  · cases heq
    obtain ⟨hkept, hagain⟩ := hkeeps hv hread
    exact hget ▸ passes_kept nofun hkept hagain

theorem passes_filled (hkeeps : Keeps Kept read write) (hm : (Json.object m).Ordered) (default : α)
    (hdefault : read (write default).sortKeys = .ok default) {a? : Option α}
    (h : optional m key read = .ok a?) :
    Passes Kept (.filled (write default).sortKeys) read (m.get? key)
      ((some (write (a?.getD default))).map Json.sortKeys) (some (a?.getD default)) := by
  obtain ⟨hget, rfl⟩ | ⟨v, a, hget, rfl, hv, hread⟩ := optional_cases hm h
  · exact hget ▸ ⟨.filled _, fun hget => optional_of_get?_eq_some hget hdefault⟩
  · obtain ⟨hkept, hagain⟩ := hkeeps hv hread
    exact hget ▸ passes_kept nofun hkept hagain

theorem passes_nullable (hkeeps : Keeps Kept read write) (hm : (Json.object m).Ordered)
    (hne : ∀ a, (write a).sortKeys ≠ .null) {a? : Option (Option α)}
    (h : optional m key (nullable read) = .ok a?) :
    Passes Kept (.omitted .null) (nullable read) (m.get? key)
      ((a?.join.map write).map Json.sortKeys) (a?.join.map some) := by
  have hnullable : ∀ {v a}, v ≠ Json.null → read v = .ok a → nullable read v = .ok (some a) := by
    intro v a hv hread
    cases v with
    | null => exact absurd rfl hv
    | _ => exact map_eq_ok.2 ⟨a, hread, rfl⟩
  obtain ⟨hget, rfl⟩ | ⟨v, o, hget, rfl, hv, hread⟩ := optional_cases hm h
  · exact hget ▸ passes_absent .null
  · cases o with
    | none =>
      obtain rfl : v = .null := by
        unfold nullable at hread
        split at hread
        · rfl
        · obtain ⟨a, -, hsome⟩ := map_eq_ok.1 hread
          cases hsome
      exact hget ▸ passes_dropped .null
    | some a =>
      have hnull : v ≠ .null := by
        rintro rfl
        cases hread
      obtain ⟨hkept, hagain⟩ := hkeeps hv (nullable_eq_ok hread)
      refine hget ▸ passes_kept (fun heq => hnull ?_) hkept (hnullable (hne a) hagain)
      cases heq
      rfl

theorem passes_list (hkeeps : Keeps Kept read write) (hm : (Json.object m).Ordered)
    {as? : Option (List α)} (h : optional m key (list read) = .ok as?) :
    Passes (ItemsKept Kept) (.omitted (.arr [])) (list read) (m.get? key)
      ((listField write (as?.getD [])).map Json.sortKeys)
      (if as?.getD [] = [] then none else some (as?.getD [])) := by
  obtain ⟨hget, rfl⟩ | ⟨v, as, hget, rfl, hv, hread⟩ := optional_cases hm h
  · exact hget ▸ passes_absent (.arr [])
  · obtain ⟨hkept, hagain⟩ := keeps_list hkeeps hv hread
    cases as with
    | nil =>
      obtain ⟨⟨⟩⟩ := hkept
      exact hget ▸ passes_dropped (.arr [])
    | cons a as =>
      refine hget ▸ passes_kept ?_ hkept hagain
      rintro ⟨⟩
      cases hread

theorem passes_texts (hm : (Json.object m).Ordered) {t? : Option (SortedMap String String)}
    (h : optional m key (map text) = .ok t?) :
    Passes Eq (.omitted (.obj [])) (map text) (m.get? key)
      ((textsField (t?.getD .empty)).map Json.sortKeys)
      (if (t?.getD .empty).isEmpty then none else some (t?.getD .empty)) := by
  obtain ⟨hget, rfl⟩ | ⟨v, t, hget, rfl, hv, hread⟩ := optional_cases hm h
  · exact hget ▸ passes_absent (.obj [])
  · obtain ⟨hkept, hagain⟩ := keeps_texts hv hread
    obtain ⟨entries, hentries⟩ := t
    cases entries with
    | nil =>
      obtain rfl : v = .obj [] := hkept
      exact hget ▸ passes_dropped (.obj [])
    | cons e entries =>
      refine hget ▸ passes_kept ?_ hkept hagain
      rintro ⟨⟩
      cases hread

end Rules

/-! ## Records -/

theorem require_eq_ok {key : String} {a? : Option α} {a : α} (h : require key a? = .ok a) :
    a? = some a := by
  cases a? <;> cases h
  rfl

section Record

variable {known : List String} {table : List Field} {fs : List (String × Option Json)}
  {e : Extra known} {m : SortedMap String Json} {a : α}
  {ofFields : SortedMap String Json → Except ShapeError α}

theorem sortKeys_extra (hm : (Json.object m).Ordered) (he : Extra.ofFields m = e) (k : String) :
    (e.fields.get? k).map Json.sortKeys = e.fields.get? k := by
  by_cases hk : k ∈ known
  · rw [e.unknown k hk]
    rfl
  · rw [← he, Extra.get?_ofFields hk]
    cases hv : m.get? k with
    | none => rfl
    | some v => exact congrArg some (Json.sortKeys_of_ordered v (ordered_of_get? hm hv))

/-- A record is kept by a table that lists what becomes of its known fields, and is read
again if that is what is read from its fields. -/
theorem keeps_written (name : String) (hknown : fs.map Prod.fst = known) (hnodup : known.Nodup)
    (hm : (Json.object m).Ordered) (he : Extra.ofFields m = e)
    (htable : List.Forall₂ (fun f g => f.key = g.1 ∧
      Becomes f.Kept f.rule (m.get? f.key) (g.2.map Json.sortKeys)) table fs)
    (hread : ∀ n : SortedMap String Json,
      (∀ k o, (k, o) ∈ fs → n.get? k = o.map Json.sortKeys) → Extra.ofFields n = e →
      ofFields n = .ok a) :
    RecordKept table (.object m) (Json.obj (written fs ++ e.fields.entries)).sortKeys ∧
      (record name (Json.obj (written fs ++ e.fields.entries)).sortKeys >>= ofFields) = .ok a := by
  have hkeys : table.map Field.key = known := by
    rw [← hknown, ← List.forall₂_eq_eq_eq, List.forall₂_map_left_iff, List.forall₂_map_right_iff]
    exact htable.imp fun _ _ h => h.1
  obtain ⟨n, hobject, hget, hextra⟩ := object_written hknown hnodup (sortKeys_extra hm he)
  rw [hobject, record_object]
  refine ⟨.intro (fun f hf => ?_) fun k hk => ?_, hread n hget hextra⟩
  · obtain ⟨g, hg, hkey, hbecomes⟩ := exists_of_forall₂ htable f hf
    rw [hget f.key g.2 (hkey ▸ hg)]
    exact hbecomes
  · rw [hkeys] at hk
    rw [← Extra.get?_ofFields hk, hextra, ← he, Extra.get?_ofFields hk]

end Record

end Shape

end WorkspaceTrust
