import WorkspaceTrust.Manifest.Shape
import WorkspaceTrust.Proofs.Json.Sound
import WorkspaceTrust.Proofs.Result

/-!
# Records are read as they are written

Every record of a manifest is written as the fields that it has, in a
fixed order, and then the fields that nothing interprets. `written` is
that list of members; `object_written` says what it is when its keys have
been sorted: an object with every field that is there, and with the same
uninterpreted fields.

`Stands read a v` says that a value is written for `a` and read as `a`,
and `StandsIf` the same of a field that may be absent.
-/

namespace WorkspaceTrust

namespace Extra

variable {known : List String}

/-- The fields may have been read. -/
def Sound (e : Extra known) : Prop := ∀ m ∈ e.fields.entries, m.2.Sound

theorem fields_injective {e e' : Extra known} (h : e.fields = e'.fields) : e = e' := by
  cases e
  cases e'
  cases h
  rfl

theorem Sound.get? {e : Extra known} (h : e.Sound) (k : String) :
    (e.fields.get? k).map Json.sortKeys = e.fields.get? k := by
  cases hv : e.fields.get? k with
  | none => rfl
  | some v => exact congrArg some (Json.sortKeys_of_sound (h _ (SortedMap.get?_eq_some_iff.1 hv)))

theorem get?_ofFields {fields : SortedMap String Json} {k : String} (hk : k ∉ known) :
    (ofFields fields : Extra known).fields.get? k = fields.get? k := by
  rw [ofFields, SortedMap.get?_filter]
  cases fields.get? k <;> simp [hk]

theorem sound_none : (none : Extra known).Sound := fun _ hm => absurd hm List.not_mem_nil

theorem sound_ofFields {fields : SortedMap String Json} (h : ∀ m ∈ fields.entries, m.2.Sound) :
    (ofFields fields : Extra known).Sound := fun m hm => h m (List.mem_filter.1 hm).1

end Extra

namespace Shape

variable {α β : Type} {read : Reader α}

/-! ## Values -/

/-- The value is written for `a` and read as `a`. -/
structure Stands (read : Reader α) (a : α) (v : Json) : Prop where
  fit : v.Fit
  read : read v.sortKeys = .ok a

theorem stands_text (s : String) : Stands text s (.str s) := ⟨(Json.sound_text s).fit, rfl⟩

theorem stands_flag (b : Bool) : Stands flag b (.bool b) := ⟨(Json.sound_flag b).fit, rfl⟩

theorem Stands.nullable {a : α} {v : Json} (h : Stands read a v) (hv : v.sortKeys ≠ .null) :
    Stands (nullable read) (some a) v := by
  refine ⟨h.fit, ?_⟩
  have hread := h.read
  cases hw : v.sortKeys with
  | null => exact absurd hw hv
  | _ =>
    rw [hw] at hread
    simp only [Shape.nullable, hread]
    rfl

theorem mapM_eq_ok {f : β → Except ShapeError α} {g : α → β} {as : List α}
    (h : ∀ a ∈ as, f (g a) = .ok a) : (as.map g).mapM f = .ok as := by
  induction as with
  | nil => rfl
  | cons a as ih =>
    rw [List.map_cons, List.mapM_cons, h a (by simp), ih fun b hb => h b (by simp [hb])]
    rfl

theorem stands_list {as : List α} {write : α → Json} (h : ∀ a ∈ as, Stands read a (write a)) :
    Stands (list read) as (.arr (as.map write)) := by
  constructor
  · refine Json.fit_arr fun v hv => ?_
    obtain ⟨a, ha, rfl⟩ := List.mem_map.1 hv
    exact (h a ha).fit
  · rw [Json.sortKeys, Json.sortKeysItems_eq_map, List.map_map]
    exact mapM_eq_ok fun a ha => (h a ha).read

theorem sound_texts (m : SortedMap String String) : (texts m).Sound := by
  refine Json.sound_object_iff.2 fun e he => ?_
  obtain ⟨e', -, rfl⟩ := List.mem_map.1 he
  exact Json.sound_text e'.2

theorem stands_texts (m : SortedMap String String) : Stands (map text) m (texts m) := by
  refine ⟨(sound_texts m).fit, ?_⟩
  have hread : (m.entries.map fun e => (e.1, Json.str e.2)).mapM
      (fun e => (text e.2).map (e.1, ·)) = .ok m.entries := mapM_eq_ok fun _ _ => rfl
  rw [Json.sortKeys_of_sound (sound_texts m)]
  show (_ >>= _) = _
  exact bind_eq_ok.2 ⟨_, hread, congrArg Except.ok m.ofList_entries⟩

/-! ## Fields -/

/-- A field that may be absent is written for what may be absent, and read as that. -/
inductive StandsIf (read : Reader α) : Option α → Option Json → Prop
  | absent : StandsIf read none none
  | present {a : α} {v : Json} (h : Stands read a v) : StandsIf read (some a) (some v)

theorem StandsIf.fit {a? : Option α} {v? : Option Json} (h : StandsIf read a? v?) :
    ∀ v, v? = some v → v.Fit := by
  rintro v rfl
  cases h with
  | present h => exact h.fit

theorem optional_of_standsIf {fields : SortedMap String Json} {key : String} {a? : Option α}
    {v? : Option Json} (h : StandsIf read a? v?) (hget : fields.get? key = v?.map Json.sortKeys) :
    optional fields key read = .ok a? := by
  rw [optional, hget]
  cases h with
  | absent => rfl
  | present h =>
    simp only [Option.map_some, h.read]
    rfl

/-- The fields that have a value. -/
def written (fs : List (String × Option Json)) : List (String × Json) :=
  fs.filterMap fun f => f.2.map (f.1, ·)

theorem mem_written {fs : List (String × Option Json)} {m : String × Json} :
    m ∈ written fs ↔ (m.1, some m.2) ∈ fs := by
  obtain ⟨k, v⟩ := m
  simp only [written, List.mem_filterMap, Option.map_eq_some_iff, Prod.mk.injEq]
  constructor
  · rintro ⟨⟨j, o⟩, hmem, w, ho, rfl, rfl⟩
    rw [← ho]
    exact hmem
  · exact fun hmem => ⟨(k, some v), hmem, v, rfl, rfl, rfl⟩

theorem keys_written (fs : List (String × Option Json)) :
    ((written fs).map Prod.fst).Sublist (fs.map Prod.fst) := by
  induction fs with
  | nil => exact List.Sublist.refl _
  | cons f fs ih =>
    obtain ⟨k, o⟩ := f
    cases o with
    | none => exact ih.cons k
    | some v => exact ih.cons_cons k

theorem lookup_written {fs : List (String × Option Json)} (hnodup : (fs.map Prod.fst).Nodup)
    {k : String} {o : Option Json} (h : (k, o) ∈ fs) : SortedMap.lookup k (written fs) = o := by
  induction fs with
  | nil => exact absurd h List.not_mem_nil
  | cons f fs ih =>
    obtain ⟨hk, hfs⟩ := List.nodup_cons.1 hnodup
    rcases List.mem_cons.1 h with rfl | hmem
    · cases o with
      | some v => simp [written, SortedMap.lookup]
      | none =>
        cases hv : SortedMap.lookup k (written fs) with
        | none => exact hv
        | some w =>
          have hmem := mem_written.1 (SortedMap.mem_entries_of_lookup hv)
          exact absurd (List.mem_map.2 ⟨_, hmem, rfl⟩) hk
    · obtain ⟨j, p⟩ := f
      have hne : j ≠ k := by
        rintro rfl
        exact hk (List.mem_map.2 ⟨_, hmem, rfl⟩)
      cases p with
      | none => exact ih hfs hmem
      | some v =>
        rw [← ih hfs hmem]
        simp [written, SortedMap.lookup, hne]

/-! ## Records -/

theorem record_object (name : String) (fields : SortedMap String Json) :
    record name (.object fields) = .ok fields := congrArg Except.ok fields.ofList_entries

section Record

variable {known : List String} {fs : List (String × Option Json)} {e : Extra known}

theorem nodup_written (hknown : fs.map Prod.fst = known) (hnodup : known.Nodup) :
    ((written fs ++ e.fields.entries).map Prod.fst).Nodup := by
  rw [List.map_append, List.nodup_append]
  have hsub := keys_written fs
  rw [hknown] at hsub
  refine ⟨hsub.nodup hnodup, Json.KeysIncrease.nodup e.fields.increasing, ?_⟩
  rintro k hk _ hk' rfl
  obtain ⟨m, hm, rfl⟩ := List.mem_map.1 hk'
  have hnone := e.unknown m.1 (hsub.subset hk)
  rw [SortedMap.get?_eq_some_iff.2 (show (m.1, m.2) ∈ e.fields.entries from hm)] at hnone
  cases hnone

theorem fit_written (hknown : fs.map Prod.fst = known) (hnodup : known.Nodup)
    (hfs : ∀ f ∈ fs, ∀ v, f.2 = some v → v.Fit) (he : e.Sound) :
    (Json.obj (written fs ++ e.fields.entries)).Fit := by
  refine Json.fit_obj (nodup_written hknown hnodup) fun m hm => ?_
  rcases List.mem_append.1 hm with hm | hm
  · exact hfs _ (mem_written.1 hm) m.2 rfl
  · exact (he m hm).fit

/-- A record that is written is an object with its fields and the fields that nothing
interprets, if these are sorted. -/
theorem object_written (hknown : fs.map Prod.fst = known) (hnodup : known.Nodup)
    (he : ∀ k, (e.fields.get? k).map Json.sortKeys = e.fields.get? k) : ∃ fields,
      (Json.obj (written fs ++ e.fields.entries)).sortKeys = .object fields ∧
      (∀ k o, (k, o) ∈ fs → fields.get? k = o.map Json.sortKeys) ∧ Extra.ofFields fields = e := by
  have hget : ∀ k, (SortedMap.ofList (Json.sortKeysMembers (written fs ++ e.fields.entries))).get? k
      = ((SortedMap.lookup k (written fs)).or (e.fields.get? k)).map Json.sortKeys := by
    intro k
    rw [Json.get?_sorted (nodup_written hknown hnodup), SortedMap.lookup_append]
    rfl
  refine ⟨_, rfl, fun k o hmem => ?_, ?_⟩
  · have hk : k ∈ known := hknown ▸ List.mem_map.2 ⟨_, hmem, rfl⟩
    rw [hget, lookup_written (hknown ▸ hnodup) hmem, e.unknown k hk, Option.or_none]
  · refine Extra.fields_injective (SortedMap.ext fun k => ?_)
    by_cases hk : k ∈ known
    · rw [e.unknown k hk, (Extra.ofFields _).unknown k hk]
    · have hnone : SortedMap.lookup k (written fs) = none := by
        cases hv : SortedMap.lookup k (written fs) with
        | none => rfl
        | some v =>
          have hmem := mem_written.1 (SortedMap.mem_entries_of_lookup hv)
          exact absurd (hknown ▸ List.mem_map.2 ⟨_, hmem, rfl⟩) hk
      rw [Extra.get?_ofFields hk, hget, hnone, Option.none_or, he]

/-- A record is written for itself if that is what is read from its fields. -/
theorem stands_record {a : α} {ofFields : SortedMap String Json → Except ShapeError α} (name : String)
    (hknown : fs.map Prod.fst = known) (hnodup : known.Nodup)
    (hfs : ∀ f ∈ fs, ∀ v, f.2 = some v → v.Fit) (he : e.Sound)
    (hread : ∀ fields, (∀ k o, (k, o) ∈ fs → fields.get? k = o.map Json.sortKeys) →
      Extra.ofFields fields = e → ofFields fields = .ok a) :
    Stands (fun v => record name v >>= ofFields) a (.obj (written fs ++ e.fields.entries)) := by
  obtain ⟨fields, hobject, hget, hextra⟩ := object_written hknown hnodup he.get?
  refine ⟨fit_written hknown hnodup hfs he, bind_eq_ok.2 ⟨fields, ?_, hread fields hget hextra⟩⟩
  rw [hobject, record_object]

end Record

/-! ## What is read is sound -/

variable {fields : SortedMap String Json} {v : Json} {a : α}

/-- The fields of an ordered value are the value. -/
theorem eq_object_of_record {name : String} (h : record name v = .ok fields) (hv : v.Ordered) :
    v = .object fields := by
  cases v with
  | obj members =>
    have hentries : SortedMap.ofList members = ⟨members, hv.1⟩ :=
      SortedMap.ofList_entries ⟨members, hv.1⟩
    obtain rfl := Except.ok.inj h
    rw [hentries]
    rfl
  | _ => cases h

theorem sound_of_record {name : String} (h : record name v = .ok fields) (hv : v.Sound) :
    ∀ m ∈ fields.entries, m.2.Sound := by
  rw [eq_object_of_record h hv.ordered] at hv
  exact Json.sound_object_iff.1 hv

/-- A text that the value has behind a key is what is read from the field. -/
theorem optional_text {name key s : String} {s? : Option String}
    (hkey : (v.get? key).bind Json.asString? = some s) (hv : v.Sound) (h : record name v = .ok fields)
    (hread : optional fields key text = .ok s?) : s? = some s := by
  rw [eq_object_of_record h hv.ordered] at hkey
  have hfield : fields.get? key = some (.str s) := by
    obtain ⟨w, hw, hs⟩ := Option.bind_eq_some_iff.1 hkey
    cases w <;> cases hs
    exact hw
  rw [optional, hfield] at hread
  exact (Except.ok.inj hread).symm

/-- A field that is there has been read from a sound value. -/
theorem optional_eq_ok {key : String} (hfields : ∀ m ∈ fields.entries, m.2.Sound)
    (h : optional fields key read = .ok (some a)) : ∃ w, w.Sound ∧ read w = .ok a := by
  rw [optional] at h
  split at h
  · cases h
  · next w hw =>
    obtain ⟨b, hb, heq⟩ := map_eq_ok.1 h
    cases heq
    exact ⟨w, hfields _ (SortedMap.get?_eq_some_iff.1 hw), hb⟩

theorem nullable_eq_ok (h : nullable read v = .ok (some a)) : read v = .ok a := by
  unfold nullable at h
  split at h
  · cases h
  · obtain ⟨b, hb, heq⟩ := map_eq_ok.1 h
    cases heq
    exact hb

theorem list_eq_ok {as : List α} (hv : v.Sound) (h : list read v = .ok as) :
    ∀ a ∈ as, ∃ w, w.Sound ∧ read w = .ok a := by
  cases v with
  | arr items =>
    intro a ha
    obtain ⟨w, hw, hread⟩ := exists_of_mapM_eq_ok h a ha
    exact ⟨w, Json.sound_arr_iff.1 hv w hw, hread⟩
  | _ => cases h

/-- A list that has been read from a field has sound items. -/
theorem forall_of_optionalList {P : α → Prop} {key : String} {as? : Option (List α)}
    (hfields : ∀ m ∈ fields.entries, m.2.Sound) (h : optional fields key (list read) = .ok as?)
    (hP : ∀ w a, w.Sound → read w = .ok a → P a) :
    ∀ a ∈ as?.getD [], P a := by
  intro a ha
  cases as? with
  | none => exact absurd ha List.not_mem_nil
  | some as =>
    obtain ⟨u, hu, hread⟩ := optional_eq_ok hfields h
    obtain ⟨w, hw, hread⟩ := list_eq_ok hu hread a ha
    exact hP w a hw hread

end Shape

end WorkspaceTrust
