import WorkspaceTrust.Proofs.Json.Sound
import WorkspaceTrust.Proofs.Yaml.Inherited
import WorkspaceTrust.Yaml.Json

/-!
# What is read is sound

The whole numbers of a node have 64 bits and its real numbers are spelled
like numbers (`Node.Proper`): scalars are read that way, and the rest
inherits it. The JSON form of such a node has its members in key order
and no infinite number, and so every document that is read is sound
(`sound_of_read`).
-/

namespace WorkspaceTrust

namespace Yaml

namespace Node

mutual

/-- The numbers in a node are such as can be read. -/
def Proper : Node → Prop
  | .int i => (Json.Number.int i).Readable
  | .real text => isReal text = true
  | .seq items => ItemsProper items
  | .map entries => EntriesProper entries
  | .unresolved | .null | .bool _ | .str _ => True

def ItemsProper : List Node → Prop
  | [] => True
  | n :: ns => n.Proper ∧ ItemsProper ns

def EntriesProper : List (Node × Node) → Prop
  | [] => True
  | (k, n) :: es => k.Proper ∧ n.Proper ∧ EntriesProper es

end

theorem itemsProper_iff {ns : List Node} : ItemsProper ns ↔ ∀ n ∈ ns, n.Proper := by
  induction ns with
  | nil => simp [ItemsProper]
  | cons n ns ih => simp [ItemsProper, ih]

theorem entriesProper_iff {es : List (Node × Node)} :
    EntriesProper es ↔ ∀ e ∈ es, e.1.Proper ∧ e.2.Proper := by
  induction es with
  | nil => simp [EntriesProper]
  | cons e es ih => simp [EntriesProper, ih, and_assoc]

/-! ## Scalars -/

theorem readable_of_readInt64 {base : Nat} {cs : List Char} {i : Int}
    (h : Literal.readInt64 base cs = some i) : (Json.Number.int i).Readable := by
  rw [Literal.readInt64, Option.filter_eq_some_iff] at h
  simpa [Json.Number.Readable] using h.2

theorem readable_of_readMarkedInt {cs : List Char} {i : Int} (h : readMarkedInt cs = some i) :
    (Json.Number.int i).Readable := by
  unfold readMarkedInt at h
  split at h
  · exact readable_of_readInt64 h
  · exact readable_of_readInt64 h
  · exact readable_of_readInt64 h
  · cases h

theorem proper_ofPlain (text : String) : (ofPlain text).Proper := by
  rw [ofPlain]
  split
  · next hi => exact readable_of_readMarkedInt hi
  · repeat' split
    all_goals first | trivial | exact readable_of_readInt64 (by assumption)

theorem proper_ofCoreTag (name text : String) : (ofCoreTag name text).Proper := by
  unfold ofCoreTag
  split
  · split_ifs <;> trivial
  · split
    · next hi => exact readable_of_readInt64 hi
    · trivial
  · split_ifs <;> trivial
  · split_ifs <;> trivial
  · trivial

theorem proper_ofScalar (style : ScalarStyle) (tag : Option Tag) (text : String) :
    (ofScalar style tag text).Proper := by
  unfold ofScalar
  split
  · exact proper_ofPlain text
  · split_ifs
    · exact proper_ofCoreTag _ text
    · trivial
  · trivial

/-! ## Documents -/

theorem inherited_proper : Inherited Proper where
  scalar := proper_ofScalar
  unresolved := trivial
  seq := itemsProper_iff.2
  map _ h := entriesProper_iff.2 h

theorem proper_of_documents {text : List Char} {ns : List Node} (h : documents text = .ok ns) :
    ∀ n ∈ ns, n.Proper :=
  inherited_proper.of_documents h

/-! ## Values -/

theorem sound_realToJson {text : String} {v : Json} (h : realToJson text = .ok v) : v.Sound := by
  have hnull : Json.null.Sound := ⟨trivial, fun _ hx => by simp [Json.leaves] at hx⟩
  rw [realToJson] at h
  split at h
  · cases h
  · next x _ =>
    cases h
    split
    · next hfinite =>
      refine ⟨trivial, fun y hy => ?_⟩
      obtain rfl : y = .float x := by simpa [Json.leaves] using hy
      exact hfinite
    · exact hnull

mutual

theorem sound_toJson : (n : Node) → {v : Json} → n.Proper → n.toJson = .ok v → v.Sound
  | .null, v, _, h => by
    cases h
    exact ⟨trivial, fun _ hx => by simp [Json.leaves] at hx⟩
  | .bool b, v, _, h => by
    cases h
    exact Json.sound_flag b
  | .int i, v, hn, h => by
    cases h
    refine ⟨trivial, fun y hy => ?_⟩
    obtain rfl : y = .int i := by simpa [Json.leaves] using hy
    exact hn
  | .real s, v, _, h => sound_realToJson h
  | .str s, v, _, h => by
    cases h
    exact Json.sound_text s
  | .seq items, v, hn, h => by
    simp only [toJson, bind_eq_ok] at h
    obtain ⟨vs, hvs, h⟩ := h
    cases h
    exact Json.sound_arr_iff.2 (sound_itemsToJson items hn hvs)
  | .map entries, v, hn, h => by
    simp only [toJson, bind_eq_ok] at h
    obtain ⟨es, hes, h⟩ := h
    cases h
    exact Json.sound_object_iff.2 fun e he =>
      sound_entriesToJson entries hn hes e (SortedMap.mem_of_mem_ofList he)
  | .unresolved, v, _, h => by cases h

theorem sound_itemsToJson : (ns : List Node) → {vs : List Json} → ItemsProper ns →
    itemsToJson ns = .ok vs → ∀ v ∈ vs, v.Sound
  | [], vs, _, h => by
    cases h
    exact nofun
  | n :: ns, vs, hn, h => by
    simp only [itemsToJson, bind_eq_ok] at h
    obtain ⟨w, hw, ws, hws, h⟩ := h
    cases h
    exact List.forall_mem_cons.2 ⟨sound_toJson n hn.1 hw, sound_itemsToJson ns hn.2 hws⟩

theorem sound_entriesToJson : (es : List (Node × Node)) → {ms : List (String × Json)} →
    EntriesProper es → entriesToJson es = .ok ms → ∀ m ∈ ms, m.2.Sound
  | [], ms, _, h => by
    cases h
    exact nofun
  | (k, n) :: es, ms, hn, h => by
    simp only [entriesToJson, bind_eq_ok] at h
    obtain ⟨key, -, w, hw, ws, hws, h⟩ := h
    cases h
    exact List.forall_mem_cons.2 ⟨sound_toJson n hn.2.1 hw, sound_entriesToJson es hn.2.2 hws⟩

end

end Node

/-- Every document that is read is sound. -/
theorem sound_of_read {text : String} {vs : List Json} (h : Yaml.read text = .ok vs) :
    ∀ v ∈ vs, v.Sound := by
  simp only [Yaml.read, bind_eq_ok, mapError_eq_ok] at h
  obtain ⟨ns, hns, h⟩ := h
  intro v hv
  obtain ⟨n, hn, hjson⟩ := exists_of_mapM_eq_ok h v hv
  exact Node.sound_toJson n (Node.proper_of_documents hns n (List.mem_filter.1 hn).1) hjson

end Yaml

end WorkspaceTrust
