import WorkspaceTrust.Proofs.Json.Leaf

/-!
# Values that can be read

What is read is `Sound`: its members are in key order at every depth, and
its numbers are whole numbers of 64 bits or finite. What is written is
`Fit` for it: no key stands twice in an object, but the members may come
in any order. A value is in key order exactly if sorting its keys changes
nothing (`ordered_iff`), and in an object that is fit every member can be
found behind its key after sorting as before (`get?_sorted`).
-/

namespace WorkspaceTrust

/-- A number that can be read: whole numbers have 64 bits, others are finite. -/
def Json.Number.Readable : Json.Number → Prop
  | .int i => -(Nat.pow 2 63 : Int) ≤ i ∧ i < Nat.pow 2 63
  | .float x => x.isFinite = true

namespace Json

/-! ## Keys -/

mutual

/-- No object in the value has a key twice. -/
def KeysDiffer : Json → Prop
  | .arr items => ItemKeysDiffer items
  | .obj members => (members.map Prod.fst).Nodup ∧ MemberKeysDiffer members
  | .null | .bool _ | .num _ | .str _ => True

def ItemKeysDiffer : List Json → Prop
  | [] => True
  | v :: vs => v.KeysDiffer ∧ ItemKeysDiffer vs

def MemberKeysDiffer : List (String × Json) → Prop
  | [] => True
  | (_, v) :: ms => v.KeysDiffer ∧ MemberKeysDiffer ms

end

theorem itemKeysDiffer_iff {vs : List Json} : ItemKeysDiffer vs ↔ ∀ v ∈ vs, v.KeysDiffer := by
  induction vs with
  | nil => simp [ItemKeysDiffer]
  | cons v vs ih => simp [ItemKeysDiffer, ih]

theorem memberKeysDiffer_iff {ms : List (String × Json)} :
    MemberKeysDiffer ms ↔ ∀ m ∈ ms, m.2.KeysDiffer := by
  induction ms with
  | nil => simp [MemberKeysDiffer]
  | cons m ms ih => simp [MemberKeysDiffer, ih]

theorem orderedItems_iff {vs : List Json} : OrderedItems vs ↔ ∀ v ∈ vs, v.Ordered := by
  induction vs with
  | nil => simp [OrderedItems]
  | cons v vs ih => simp [OrderedItems, ih]

theorem orderedMembers_iff {ms : List (String × Json)} :
    OrderedMembers ms ↔ ∀ m ∈ ms, m.2.Ordered := by
  induction ms with
  | nil => simp [OrderedMembers]
  | cons m ms ih => simp [OrderedMembers, ih]

theorem sortKeysItems_eq_map (vs : List Json) : sortKeysItems vs = vs.map sortKeys := by
  induction vs with
  | nil => rfl
  | cons v vs ih => rw [sortKeysItems, ih, List.map_cons]

theorem sortKeysMembers_eq_map (ms : List (String × Json)) :
    sortKeysMembers ms = ms.map fun m => (m.1, m.2.sortKeys) := by
  induction ms with
  | nil => rfl
  | cons m ms ih => rw [sortKeysMembers, ih, List.map_cons]

theorem KeysIncrease.nodup {ms : List (String × Json)} (h : KeysIncrease ms) :
    (ms.map Prod.fst).Nodup := by
  rw [List.Nodup, List.pairwise_map]
  exact h.imp fun hlt => KeyOrder.ne_of_before hlt

mutual

theorem keysDiffer_of_ordered : (v : Json) → v.Ordered → v.KeysDiffer
  | .null, _ | .bool _, _ | .num _, _ | .str _, _ => trivial
  | .arr vs, h => itemKeysDiffer_of_ordered vs h
  | .obj ms, h => ⟨h.1.nodup, memberKeysDiffer_of_ordered ms h.2⟩

theorem itemKeysDiffer_of_ordered : (vs : List Json) → OrderedItems vs → ItemKeysDiffer vs
  | [], _ => trivial
  | v :: vs, h => ⟨keysDiffer_of_ordered v h.1, itemKeysDiffer_of_ordered vs h.2⟩

theorem memberKeysDiffer_of_ordered : (ms : List (String × Json)) → OrderedMembers ms →
    MemberKeysDiffer ms
  | [], _ => trivial
  | (_, v) :: ms, h => ⟨keysDiffer_of_ordered v h.1, memberKeysDiffer_of_ordered ms h.2⟩

end

mutual

theorem sortKeys_of_ordered : (v : Json) → v.Ordered → v.sortKeys = v
  | .null, _ | .bool _, _ | .num _, _ | .str _, _ => rfl
  | .arr vs, h => by rw [sortKeys, sortKeysItems_of_ordered vs h]
  | .obj ms, h => by
    have hentries : SortedMap.ofList ms = ⟨ms, h.1⟩ := SortedMap.ofList_entries ⟨ms, h.1⟩
    rw [sortKeys, sortKeysMembers_of_ordered ms h.2, hentries]
    rfl

theorem sortKeysItems_of_ordered : (vs : List Json) → OrderedItems vs → sortKeysItems vs = vs
  | [], _ => rfl
  | v :: vs, h => by rw [sortKeysItems, sortKeys_of_ordered v h.1, sortKeysItems_of_ordered vs h.2]

theorem sortKeysMembers_of_ordered : (ms : List (String × Json)) → OrderedMembers ms →
    sortKeysMembers ms = ms
  | [], _ => rfl
  | (k, v) :: ms, h => by
    rw [sortKeysMembers, sortKeys_of_ordered v h.1, sortKeysMembers_of_ordered ms h.2]

end

mutual

theorem ordered_sortKeys : (v : Json) → v.sortKeys.Ordered
  | .null | .bool _ | .num _ | .str _ => trivial
  | .arr vs => orderedItems_sortKeys vs
  | .obj ms => ⟨(SortedMap.ofList (sortKeysMembers ms)).increasing, orderedMembers_iff.2 fun _ hm =>
      orderedMembers_iff.1 (orderedMembers_sortKeys ms) _ (SortedMap.mem_of_mem_ofList hm)⟩

theorem orderedItems_sortKeys : (vs : List Json) → OrderedItems (sortKeysItems vs)
  | [] => trivial
  | v :: vs => ⟨ordered_sortKeys v, orderedItems_sortKeys vs⟩

theorem orderedMembers_sortKeys : (ms : List (String × Json)) → OrderedMembers (sortKeysMembers ms)
  | [] => trivial
  | (_, v) :: ms => ⟨ordered_sortKeys v, orderedMembers_sortKeys ms⟩

end

theorem ordered_iff {v : Json} : v.Ordered ↔ v.sortKeys = v :=
  ⟨sortKeys_of_ordered v, fun h => h ▸ ordered_sortKeys v⟩

instance : DecidablePred Ordered := fun _ => decidable_of_iff _ ordered_iff.symm

/-- Where no key stands twice, look-up does not depend on the direction. -/
theorem lookup_reverse {ms : List (String × Json)} (h : (ms.map Prod.fst).Nodup) (k : String) :
    SortedMap.lookup k ms.reverse = SortedMap.lookup k ms := by
  induction ms with
  | nil => rfl
  | cons m ms ih =>
    obtain ⟨j, v⟩ := m
    obtain ⟨hj, hms⟩ := List.nodup_cons.1 h
    rw [List.reverse_cons, SortedMap.lookup_append, ih hms]
    by_cases hk : j = k
    · have hnone : SortedMap.lookup k ms = none := by
        cases hv : SortedMap.lookup k ms with
        | none => rfl
        | some w => exact absurd (List.mem_map.2 ⟨_, SortedMap.mem_entries_of_lookup hv, hk.symm⟩) hj
      simp [SortedMap.lookup, hk, hnone]
    · cases hv : SortedMap.lookup k ms <;> simp [SortedMap.lookup, hk, hv]

/-- The members of an object behind their keys, after sorting. -/
theorem get?_sorted {ms : List (String × Json)} (h : (ms.map Prod.fst).Nodup) (k : String) :
    (SortedMap.ofList (sortKeysMembers ms)).get? k = (SortedMap.lookup k ms).map sortKeys := by
  have hkeys : ((sortKeysMembers ms).map Prod.fst).Nodup := by
    rw [sortKeysMembers_eq_map, List.map_map]
    exact h
  rw [SortedMap.get?_ofList, lookup_reverse hkeys, sortKeysMembers_eq_map, SortedMap.lookup_map]

/-! ## Numbers -/

/-- All numbers in the value can be read. -/
def NumbersReadable (v : Json) : Prop := ∀ x, .number x ∈ v.leaves → x.Readable

theorem leaf_mem_itemLeaves {l : Leaf} {vs : List Json} :
    l ∈ itemLeaves vs ↔ ∃ v ∈ vs, l ∈ v.leaves := by
  induction vs with
  | nil => simp [itemLeaves]
  | cons v vs ih => simp [itemLeaves, ih]

theorem leaf_mem_memberLeaves {l : Leaf} {ms : List (String × Json)} :
    l ∈ memberLeaves ms ↔ ∃ m ∈ ms, l = .key m.1 ∨ l ∈ m.2.leaves := by
  induction ms with
  | nil => simp [memberLeaves]
  | cons m ms ih => simp [memberLeaves, ih, or_assoc]

theorem numbersReadable_arr {vs : List Json} :
    (arr vs).NumbersReadable ↔ ∀ v ∈ vs, v.NumbersReadable := by
  constructor
  · exact fun h v hv x hx => h x (leaf_mem_itemLeaves.2 ⟨v, hv, hx⟩)
  · intro h x hx
    obtain ⟨v, hv, hx⟩ := leaf_mem_itemLeaves.1 hx
    exact h v hv x hx

theorem numbersReadable_obj {ms : List (String × Json)} :
    (obj ms).NumbersReadable ↔ ∀ m ∈ ms, m.2.NumbersReadable := by
  constructor
  · exact fun h m hm x hx => h x (leaf_mem_memberLeaves.2 ⟨m, hm, .inr hx⟩)
  · intro h x hx
    obtain ⟨m, hm, heq | hx⟩ := leaf_mem_memberLeaves.1 hx
    · cases heq
    · exact h m hm x hx

/-! ## What is read and what is written -/

/-- The value may have been read. -/
structure Sound (v : Json) : Prop where
  ordered : v.Ordered
  numbers : v.NumbersReadable

/-- The value can be written and read. -/
structure Fit (v : Json) : Prop where
  keys : v.KeysDiffer
  numbers : v.NumbersReadable

theorem Sound.fit {v : Json} (h : v.Sound) : v.Fit := ⟨keysDiffer_of_ordered v h.ordered, h.numbers⟩

theorem sortKeys_of_sound {v : Json} (h : v.Sound) : v.sortKeys = v := sortKeys_of_ordered v h.ordered

theorem sound_text (s : String) : (str s).Sound := ⟨trivial, fun _ hx => by simp [leaves] at hx⟩

theorem sound_flag (b : Bool) : (bool b).Sound := ⟨trivial, fun _ hx => by simp [leaves] at hx⟩

theorem sound_arr_iff {vs : List Json} : (arr vs).Sound ↔ ∀ v ∈ vs, v.Sound := by
  constructor
  · exact fun h v hv => ⟨orderedItems_iff.1 h.ordered v hv, numbersReadable_arr.1 h.numbers v hv⟩
  · exact fun h => ⟨orderedItems_iff.2 fun v hv => (h v hv).ordered,
      numbersReadable_arr.2 fun v hv => (h v hv).numbers⟩

theorem sound_object_iff {m : SortedMap String Json} :
    (object m).Sound ↔ ∀ e ∈ m.entries, e.2.Sound := by
  constructor
  · exact fun h e he => ⟨orderedMembers_iff.1 h.ordered.2 e he, numbersReadable_obj.1 h.numbers e he⟩
  · exact fun h => ⟨⟨m.increasing, orderedMembers_iff.2 fun e he => (h e he).ordered⟩,
      numbersReadable_obj.2 fun e he => (h e he).numbers⟩

theorem fit_arr {vs : List Json} (h : ∀ v ∈ vs, v.Fit) : (arr vs).Fit :=
  ⟨itemKeysDiffer_iff.2 fun v hv => (h v hv).keys, numbersReadable_arr.2 fun v hv => (h v hv).numbers⟩

theorem fit_obj {ms : List (String × Json)} (hkeys : (ms.map Prod.fst).Nodup)
    (h : ∀ m ∈ ms, m.2.Fit) : (obj ms).Fit :=
  ⟨⟨hkeys, memberKeysDiffer_iff.2 fun m hm => (h m hm).keys⟩,
    numbersReadable_obj.2 fun m hm => (h m hm).numbers⟩

end Json

end WorkspaceTrust
