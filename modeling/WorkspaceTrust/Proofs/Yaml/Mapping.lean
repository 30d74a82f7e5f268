import Mathlib.Data.List.Forall2
import Mathlib.Data.List.Nodup
import Mathlib.Data.List.Perm.Subperm
import WorkspaceTrust.Proofs.Decimal.Digits
import WorkspaceTrust.Proofs.Yaml.Number
import WorkspaceTrust.Proofs.Yaml.Sound

/-!
# Mappings as objects

A document and its JSON form have the same branches: the items of a list
by their numbers, and what stands under a key by the text of the key
(`rel_along?`). Under one text there is one branch, and so a mapping has
as many members left as its keys have texts: `mapping_becomes_object`
says which, and that none is missing exactly if the texts differ.

The keys of a mapping are different nodes, but different nodes can have
one text. They are of different kinds then: each kind of scalar is
written so that no two of them look the same (`eq_of_sameKind`). Such a
mapping should be refused like one with equal keys. It is not, and what it
loses is lost without a fault (`mapping_loses_entry`).
-/

namespace WorkspaceTrust

namespace SortedMap

variable {κ α : Type} [KeyOrder κ] [DecidableEq κ] {l : List (κ × α)} {k : κ} {a : α}

/-- Each pair of a list leaves something under its key. -/
theorem exists_get?_ofList (h : (k, a) ∈ l) : ∃ b, (k, b) ∈ l ∧ (ofList l).get? k = some b := by
  cases hget : (ofList l).get? k with
  | none =>
    rw [get?_ofList] at hget
    exact absurd (List.mem_reverse.2 h) (not_mem_of_lookup_eq_none hget)
  | some b => exact ⟨b, mem_of_mem_ofList (get?_eq_some_iff.1 hget), rfl⟩

theorem get?_ofList_of_nodup (hnodup : (l.map Prod.fst).Nodup) (h : (k, a) ∈ l) :
    (ofList l).get? k = some a := by
  obtain ⟨b, hb, hget⟩ := exists_get?_ofList h
  obtain rfl : b = a := congrArg Prod.snd (List.inj_on_of_nodup_map hnodup hb h rfl)
  exact hget

/-- A map made of pairs has as many entries as there are pairs exactly if their keys differ. -/
theorem size_ofList_iff : (ofList l).size = l.length ↔ (l.map Prod.fst).Nodup := by
  have hnodup : (ofList l).keys.Nodup :=
    List.pairwise_map.2 ((ofList l).increasing.imp KeyOrder.ne_of_before)
  have hmem : ∀ k, k ∈ (ofList l).keys ↔ k ∈ l.map Prod.fst := by
    intro k
    constructor
    · intro hk
      obtain ⟨e, he, rfl⟩ := List.mem_map.1 hk
      exact List.mem_map_of_mem (mem_of_mem_ofList he)
    · intro hk
      obtain ⟨e, he, rfl⟩ := List.mem_map.1 hk
      obtain ⟨b, -, hget⟩ := exists_get?_ofList he
      exact List.mem_map.2 ⟨_, get?_eq_some_iff.1 hget, rfl⟩
  have hsize : (ofList l).size = (ofList l).keys.length := (List.length_map _).symm
  rw [hsize, ← List.length_map Prod.fst]
  constructor
  · intro h
    have hsubperm := hnodup.subperm fun k hk => (hmem k).1 hk
    exact (hsubperm.perm_of_length_le (Nat.le_of_eq h.symm)).nodup_iff.1 hnodup
  · exact fun h => ((List.perm_ext_iff_of_nodup hnodup h).2 hmem).length_eq

end SortedMap

/-! ## Branches -/

/-- A branch of a document: an item by its number, or what stands under a key. -/
inductive Branch where
  | item (index : Nat)
  | key (text : String)

namespace Json

def branch? : Json → Branch → Option Json
  | .arr items, .item i => items[i]?
  | .obj members, .key text => SortedMap.lookup text members
  | _, _ => none

def along? (v : Json) (path : List Branch) : Option Json := path.foldlM branch? v

end Json

namespace Yaml.Node

/-- The values of a mapping by the texts of their keys. -/
def named (es : List (Node × Node)) : List (String × Node) :=
  es.filterMap fun e => e.1.keyText.toOption.map fun text => (text, e.2)

/-- Under a key stands the value of the last entry whose key has this text. -/
def branch? : Node → Branch → Option Node
  | .seq items, .item i => items[i]?
  | .map entries, .key text => SortedMap.lookup text (named entries).reverse
  | _, _ => none

def along? (n : Node) (path : List Branch) : Option Node := path.foldlM branch? n

/-- The JSON form of the node. -/
def Becomes (n : Node) (v : Json) : Prop := n.toJson = .ok v

variable {n : Node} {v : Json} {ns : List Node} {vs : List Json} {es : List (Node × Node)}
  {ms : List (String × Json)}

theorem forall₂_of_itemsToJson (h : itemsToJson ns = .ok vs) : List.Forall₂ Becomes ns vs := by
  induction ns generalizing vs with
  | nil =>
    cases h
    exact .nil
  | cons n ns ih =>
    simp only [itemsToJson, bind_eq_ok] at h
    obtain ⟨v, hv, ws, hws, h⟩ := h
    cases h
    exact .cons hv (ih hws)

theorem forall₂_of_entriesToJson (h : entriesToJson es = .ok ms) :
    List.Forall₂ (fun e m => e.1.keyText = .ok m.1 ∧ e.2.Becomes m.2) es ms := by
  induction es generalizing ms with
  | nil =>
    cases h
    exact .nil
  | cons e es ih =>
    simp only [entriesToJson, bind_eq_ok] at h
    obtain ⟨key, hkey, v, hv, ms, hms, h⟩ := h
    cases h
    exact .cons ⟨hkey, hv⟩ (ih hms)

/-- Look-up by name goes to the same place on both sides. -/
theorem rel_lookup {ps : List (String × Node)}
    (h : List.Forall₂ (fun p m => p.1 = m.1 ∧ p.2.Becomes m.2) ps ms) (text : String) :
    Option.Rel Becomes (SortedMap.lookup text ps) (SortedMap.lookup text ms) := by
  induction h with
  | nil => exact .none
  | @cons p m ps ms hp h ih =>
    obtain ⟨p, n⟩ := p
    obtain ⟨rfl, hn⟩ : p = m.1 ∧ n.Becomes m.2 := hp
    by_cases htext : m.1 = text
    · simp only [SortedMap.lookup, htext, if_true]
      exact Option.Rel.some hn
    · simpa only [SortedMap.lookup, htext, if_false] using ih

theorem rel_getElem? (h : List.Forall₂ Becomes ns vs) (i : Nat) :
    Option.Rel Becomes ns[i]? vs[i]? := by
  induction h generalizing i with
  | nil => exact .none
  | cons hn h ih =>
    cases i with
    | zero => exact Option.Rel.some hn
    | succ i => simpa only [List.getElem?_cons_succ] using ih i

theorem forall₂_named
    (h : List.Forall₂ (fun e m => e.1.keyText = .ok m.1 ∧ e.2.Becomes m.2) es ms) :
    List.Forall₂ (fun p m => p.1 = m.1 ∧ p.2.Becomes m.2) (named es) ms := by
  induction h with
  | nil => exact .nil
  | @cons e m es ms he h ih =>
    have hnamed : named (e :: es) = (m.1, e.2) :: named es := by
      simp [named, he.1, Except.toOption]
    rw [hnamed]
    exact .cons ⟨rfl, he.2⟩ ih

/-- What stands under a key in an object is the last of what stands under it in the mapping. -/
theorem rel_get? (h : entriesToJson es = .ok ms) (text : String) :
    Option.Rel Becomes (SortedMap.lookup text (named es).reverse)
      ((SortedMap.ofList ms).get? text) := by
  rw [SortedMap.get?_ofList]
  exact rel_lookup (List.forall₂_reverse_iff.2 (forall₂_named (forall₂_of_entriesToJson h))) text

theorem becomes_seq (h : (Node.seq ns).Becomes v) :
    ∃ vs, List.Forall₂ Becomes ns vs ∧ v = .arr vs := by
  simp only [Becomes, toJson, bind_eq_ok] at h
  obtain ⟨vs, hvs, h⟩ := h
  cases h
  exact ⟨vs, forall₂_of_itemsToJson hvs, rfl⟩

theorem becomes_map (h : (Node.map es).Becomes v) :
    ∃ ms, entriesToJson es = .ok ms ∧ v = .object (SortedMap.ofList ms) := by
  simp only [Becomes, toJson, bind_eq_ok] at h
  obtain ⟨ms, hms, h⟩ := h
  cases h
  exact ⟨ms, hms, rfl⟩

/-- A scalar becomes a value without branches. -/
theorem branch?_realToJson {text : String} (h : realToJson text = .ok v) (b : Branch) :
    v.branch? b = none := by
  rw [realToJson] at h
  split at h
  · cases h
  · cases h
    split <;> rfl

/-- A document and its JSON form have the same branches. -/
theorem rel_branch? (h : n.Becomes v) (b : Branch) :
    Option.Rel Becomes (n.branch? b) (v.branch? b) := by
  cases n with
  | seq ns =>
    obtain ⟨vs, hvs, rfl⟩ := becomes_seq h
    cases b with
    | item i => exact rel_getElem? hvs i
    | key text => exact .none
  | map es =>
    obtain ⟨ms, hms, rfl⟩ := becomes_map h
    cases b with
    | item i => exact .none
    | key text => exact rel_get? hms text
  | real text =>
    rw [branch?_realToJson h]
    exact .none
  | unresolved => cases h
  | null | bool _ | int _ | str _ =>
    cases h
    exact .none

theorem rel_along? (h : n.Becomes v) (path : List Branch) :
    Option.Rel Becomes (n.along? path) (v.along? path) := by
  induction path generalizing n v with
  | nil => exact Option.Rel.some h
  | cons b path ih =>
    have hb := rel_branch? h b
    rw [along?, Json.along?, List.foldlM_cons, List.foldlM_cons]
    generalize n.branch? b = m? at hb
    generalize v.branch? b = w? at hb
    cases hb with
    | none => exact .none
    | some hm => exact ih hm

/-! ## Keys and their texts -/

/-- No two entries have keys of one text. -/
def TextsDiffer (es : List (Node × Node)) : Prop := (es.map fun e => e.1.keyText).Nodup

theorem textsDiffer_iff (h : entriesToJson es = .ok ms) :
    TextsDiffer es ↔ (ms.map Prod.fst).Nodup := by
  have htexts : es.map (fun e => e.1.keyText) = (ms.map Prod.fst).map .ok := by
    have hentries := forall₂_of_entriesToJson h
    clear h
    induction hentries with
    | nil => rfl
    | cons he _ ih => rw [List.map_cons, List.map_cons, List.map_cons, he.1, ih]
  rw [TextsDiffer, htexts, List.nodup_map_iff fun _ _ => Except.ok.inj]

/-- Scalars that are both null, both booleans, both whole numbers, both real numbers or both
text. -/
def sameKind : Node → Node → Bool
  | .null, .null | .bool _, .bool _ | .int _, .int _ | .real _, .real _ | .str _, .str _ => true
  | _, _ => false

theorem toString_int_injective {i j : Int} (h : toString i = toString j) : i = j := by
  have hread := Literal.readInt_toString i
  rw [h, Literal.readInt_toString] at hread
  exact (Option.some.inj hread).symm

/-- No two scalars of one kind have the same text. -/
theorem eq_of_sameKind {a b : Node} (hkind : sameKind a b = true) (htext : a.keyText = b.keyText) :
    a = b := by
  cases a <;> cases b <;> try cases hkind
  case null.null => rfl
  case bool.bool a b => cases a <;> cases b <;> simp [keyText] at htext ⊢
  case int.int i j => exact congrArg _ (toString_int_injective (Except.ok.inj htext))
  case real.real s t => exact congrArg _ (Except.ok.inj htext)
  case str.str s t => exact congrArg _ (Except.ok.inj htext)

/-- In every mapping of the document the keys are different nodes. -/
def MappingsSound (n : Node) : Prop :=
  ∀ path es, n.along? path = some (.map es) → KeysDiffer es

/-- What holds of the branches of a collection holds of the collection, but for its own keys. -/
theorem mappingsSound_of_branches (hself : ∀ es, n = .map es → KeysDiffer es)
    (h : ∀ b m, n.branch? b = some m → MappingsSound m) : MappingsSound n := by
  intro path es hpath
  cases path with
  | nil => exact hself es (Option.some.inj hpath)
  | cons b path =>
    rw [along?, List.foldlM_cons] at hpath
    obtain ⟨m, hm, hpath⟩ := Option.bind_eq_some_iff.1 hpath
    exact h b m hm path es hpath

theorem mem_of_branch?_map {b : Branch} {m : Node} (h : (Node.map es).branch? b = some m) :
    ∃ e ∈ es, e.2 = m := by
  cases b with
  | item i => cases h
  | key text =>
    have hmem := List.mem_reverse.1 (SortedMap.mem_entries_of_lookup h)
    obtain ⟨e, he, hname⟩ := List.mem_filterMap.1 hmem
    obtain ⟨text', -, heq⟩ := Option.map_eq_some_iff.1 hname
    exact ⟨e, he, (Prod.mk.inj heq).2⟩

theorem inherited_mappingsSound : Inherited MappingsSound where
  scalar style tag text := by
    have hscalar : ∀ b, (ofScalar style tag text).branch? b = none ∧
        ∀ es, ofScalar style tag text ≠ .map es := by
      intro b
      unfold ofScalar ofPlain ofCoreTag
      repeat' split
      all_goals exact ⟨rfl, nofun⟩
    exact mappingsSound_of_branches (fun es h => absurd h ((hscalar (.item 0)).2 es))
      fun b m h => by simp [(hscalar b).1] at h
  unresolved := mappingsSound_of_branches nofun nofun
  seq {ns} h := by
    refine mappingsSound_of_branches nofun fun b m hm => ?_
    cases b with
    | item i => exact h m (List.mem_of_getElem? hm)
    | key text => cases hm
  map {es} hdiffer h := by
    refine mappingsSound_of_branches (fun es' heq => ?_) fun b m hm => ?_
    · cases heq
      exact hdiffer
    · obtain ⟨e, he, rfl⟩ := mem_of_branch?_map hm
      exact (h e he).2

/-! ## Single entries -/

section Entries

variable {k : Node} {s key : String}

theorem eq_str_of_becomes (h : n.Becomes (.str s)) : n = .str s := by
  cases n with
  | str t =>
    cases h
    rfl
  | real t =>
    simp only [Becomes, toJson, realToJson] at h
    split at h
    · cases h
    · split at h <;> cases h
  | seq ns =>
    obtain ⟨vs, -, heq⟩ := becomes_seq h
    cases heq
  | map es =>
    obtain ⟨ms, -, heq⟩ := becomes_map h
    cases heq
  | _ => cases h

/-- A text that is text for the reader is not the text of any other node. -/
theorem eq_str_of_keyText (hn : n.Proper) (h : n.keyText = .ok s) (hs : ofPlain s = .str s) :
    n = .str s := by
  cases n with
  | str t =>
    cases h
    rfl
  | int i =>
    obtain rfl : toString i = s := Except.ok.inj h
    have hreturns := numberReturns_of_readable (x := .int i) hn
    rw [NumberReturns, writeNumber, String.ofList_toList, hs] at hreturns
    cases hreturns
  | real t =>
    obtain rfl : t = s := Except.ok.inj h
    have hreal : isReal t = true := hn
    simp only [ofPlain, hreal, if_true] at hs
    repeat' split at hs
    all_goals cases hs
  | bool b =>
    cases b <;> cases h <;> cases hs
  | null =>
    cases h
    cases hs
  | unresolved | seq _ | map _ => cases h

theorem mem_named (hmem : (k, n) ∈ es) (hkey : k.keyText = .ok key) : (key, n) ∈ named es :=
  List.mem_filterMap.2 ⟨(k, n), hmem, by simp [hkey, Except.toOption]⟩

theorem exists_branch?_of_entry (hmem : (k, n) ∈ es) (hkey : k.keyText = .ok key) :
    ∃ m, (Node.map es).branch? (.key key) = some m := by
  rw [branch?, ← Option.isSome_iff_exists, Option.isSome_iff_ne_none]
  exact fun hnone => SortedMap.not_mem_of_lookup_eq_none hnone
    (List.mem_reverse.2 (mem_named hmem hkey))

/-- What stands in a mapping under a text that is no other node's, stands under this text. -/
theorem branch?_of_entry (hproper : (Node.map es).Proper) (hdiffer : KeysDiffer es)
    (hmem : (.str key, n) ∈ es) (hkey : ofPlain key = .str key) :
    (Node.map es).branch? (.key key) = some n := by
  obtain ⟨m, hm⟩ := exists_branch?_of_entry hmem rfl
  have hentry := List.mem_reverse.1 (SortedMap.mem_entries_of_lookup hm)
  obtain ⟨e, he, heq⟩ := List.mem_filterMap.1 hentry
  obtain ⟨text, htext, heq⟩ := Option.map_eq_some_iff.1 heq
  obtain ⟨rfl, rfl⟩ := Prod.mk.inj heq
  have hstr : e.1 = .str text := by
    refine eq_str_of_keyText (entriesProper_iff.1 hproper e he).1 ?_ hkey
    cases hresult : e.1.keyText <;> rw [hresult] at htext <;> cases htext
    rfl
  obtain rfl : e = (.str text, n) := List.inj_on_of_nodup_map hdiffer he hmem hstr
  exact hm

/-- A mapping that becomes an object with one member has keys with one text. -/
theorem keyText_of_becomes {v : Json} (h : (Node.map es).Becomes (.obj [(key, v)]))
    (hmem : (k, n) ∈ es) : k.keyText = .ok key := by
  obtain ⟨ms, hms, -⟩ := becomes_map h
  obtain ⟨⟨text, w⟩, -, htext, -⟩ := exists_of_forall₂ (forall₂_of_entriesToJson hms) _ hmem
  obtain ⟨m, hm⟩ := exists_branch?_of_entry hmem htext
  have hrel := rel_branch? h (.key text)
  rw [hm] at hrel
  by_cases hkey : key = text
  · rwa [hkey]
  · rw [Json.branch?, SortedMap.lookup, if_neg hkey] at hrel
    cases hrel

end Entries

/-! ## Objects -/

/-- The object that a mapping becomes has one member for each text that a key has, with what
the last entry of this text becomes. So none of the entries is missing exactly if no two of
their keys have one text, and those that have are of different kinds. -/
theorem mapping_becomes_object {text : List Char} (hread : documents text = .ok ns) (hn : n ∈ ns)
    (hv : n.Becomes v) (path : List Branch) (hpath : n.along? path = some (.map es)) :
    ∃ m : SortedMap String Json, v.along? path = some (.object m) ∧
      (∀ key, Option.Rel Becomes (SortedMap.lookup key (named es).reverse) (m.get? key)) ∧
      (m.size = es.length ↔ TextsDiffer es) ∧
      (TextsDiffer es → ∀ e ∈ es, ∃ key w,
        e.1.keyText = .ok key ∧ e.2.Becomes w ∧ m.get? key = some w) ∧
      es.Pairwise fun e e' => e.1.keyText = e'.1.keyText → sameKind e.1 e'.1 = false := by
  have hrel := rel_along? hv path
  rw [hpath] at hrel
  generalize v.along? path = w? at hrel
  cases hrel with
  | some hw =>
  obtain ⟨ms, hms, rfl⟩ := becomes_map hw
  have hentries := forall₂_of_entriesToJson hms
  have hsize : (SortedMap.ofList ms).size = es.length ↔ TextsDiffer es := by
    rw [hentries.length_eq, SortedMap.size_ofList_iff, textsDiffer_iff hms]
  refine ⟨_, rfl, rel_get? hms, hsize, fun hdiffer e he => ?_, ?_⟩
  · obtain ⟨⟨key, w⟩, hm, hkey, hw⟩ := exists_of_forall₂ hentries e he
    exact ⟨key, w, hkey, hw,
      SortedMap.get?_ofList_of_nodup ((textsDiffer_iff hms).1 hdiffer) hm⟩
  · have hkeys : es.Pairwise fun e e' => e.1 ≠ e'.1 :=
      List.pairwise_map.1 (inherited_mappingsSound.of_documents hread n hn path es hpath)
    refine hkeys.imp fun {e e'} hne htext => ?_
    exact Bool.eq_false_iff.2 fun hkind => hne (eq_of_sameKind hkind htext)

theorem mapping_becomes_object_nested :
    ∃ n v m, documents "1: a\ntwo: \x7b3: c, three: d\x7d\n".toList = .ok [n] ∧ n.Becomes v ∧
      v.along? [.key "two"] = some (.object m) ∧ m.size = 2 ∧ m.get? "3" = some (.str "c") := by
  have hread : documents "1: a\ntwo: \x7b3: c, three: d\x7d\n".toList = .ok [.map [
      (.int 1, .str "a"),
      (.str "two", .map [(.int 3, .str "c"), (.str "three", .str "d")])]] := by decide +kernel
  have hdiffer : TextsDiffer [(.int 3, .str "c"), (.str "three", .str "d")] := by
    rw [TextsDiffer]
    decide
  obtain ⟨m, hm, -, hsize, hkept, -⟩ := mapping_becomes_object hread (List.mem_singleton_self _)
    (v := .obj [("1", .str "a"), ("two", .obj [("3", .str "c"), ("three", .str "d")])])
    (by unfold Becomes; decide +kernel) [.key "two"] rfl
  obtain ⟨key, w, hkey, hw, hget⟩ := hkept hdiffer (.int 3, .str "c") (by simp)
  obtain rfl : "3" = key := Except.ok.inj hkey
  obtain rfl : Json.str "c" = w := Except.ok.inj hw
  exact ⟨_, _, m, hread, by unfold Becomes; decide +kernel, hm, hsize.2 hdiffer, hget⟩

/-- A mapping whose keys are different nodes of one text loses an entry, and this is no
fault for the conversion. -/
theorem mapping_loses_entry :
    ∃ es v, documents "1: a\n\"1\": b\n".toList = .ok [.map es] ∧ es.length = 2 ∧
      KeysDiffer es ∧ (Node.map es).Becomes v ∧ v = .obj [("1", .str "b")] := by
  refine ⟨[(.int 1, .str "a"), (.str "1", .str "b")], _, by decide +kernel, rfl, ?_, ?_, rfl⟩
  · unfold KeysDiffer
    decide
  · unfold Becomes
    decide +kernel

end Yaml.Node

end WorkspaceTrust
