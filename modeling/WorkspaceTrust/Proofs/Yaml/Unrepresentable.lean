import WorkspaceTrust.Proofs.Yaml.Mapping
import WorkspaceTrust.Proofs.Yaml.Sound

/-!
# Documents without a JSON form

A conversion comes to the document itself and from there to the items of
lists and the values of mappings (`Reaches`). `Obstructs` says what it
must not come to: an unresolved node, a mapping with a collection for a
key, a real number whose spelling is no decimal. If it fails, its error
names such an obstacle (`obstructs_of_toJson`); if it succeeds, all that
it came to has a JSON form as well (`exists_becomes_of_reaches`), and so
there was none.

In a document that has been read every real number is spelled like one,
and of these spellings only the words that begin with a point, perhaps
behind a sign, are no decimals (`not_decimal_iff`). They are the words of
the language for the numbers that are null in JSON where they are
spelled in another way (`pointed_word_has_no_json`).
-/

namespace WorkspaceTrust.Yaml.Node

variable {n m : Node} {v : Json} {ns : List Node} {es : List (Node × Node)} {e : Unrepresentable}

/-! ## Obstacles -/

/-- What a conversion of the first node comes to. Keys are not converted. -/
inductive Reaches : Node → Node → Prop
  | here (n : Node) : Reaches n n
  | item {ns : List Node} {n m : Node} (hn : n ∈ ns) (h : Reaches n m) : Reaches (.seq ns) m
  | value {es : List (Node × Node)} {entry : Node × Node} {m : Node} (he : entry ∈ es)
      (h : Reaches entry.2 m) : Reaches (.map es) m

def isScalar : Node → Bool
  | .unresolved | .seq _ | .map _ => false
  | .null | .bool _ | .int _ | .real _ | .str _ => true

/-- Something in the node has no JSON form, for this reason. -/
inductive Obstructs (n : Node) : Unrepresentable → Prop
  | unresolved (h : n.Reaches .unresolved) : Obstructs n .unresolved
  | keyType {es : List (Node × Node)} {entry : Node × Node} (h : n.Reaches (.map es))
      (he : entry ∈ es) (hkey : entry.1.isScalar = false) : Obstructs n .keyType
  | realSpelling {text : String} (h : n.Reaches (.real text))
      (hspelling : Literal.readBinary64 text.toList = none) : Obstructs n .realSpelling

/-- What obstructs a part of a node obstructs the node. -/
theorem Obstructs.of_part {part : Node} (hpart : ∀ {m}, part.Reaches m → n.Reaches m)
    (h : part.Obstructs e) : n.Obstructs e := by
  cases h with
  | unresolved h => exact .unresolved (hpart h)
  | keyType h he hkey => exact .keyType (hpart h) he hkey
  | realSpelling h hspelling => exact .realSpelling (hpart h) hspelling

theorem isScalar_of_keyText {text : String} (h : n.keyText = .ok text) : n.isScalar = true := by
  cases n with
  | unresolved | seq _ | map _ => cases h
  | null | bool _ | int _ | real _ | str _ => rfl

theorem keyText_eq_error (h : n.keyText = .error e) : e = .keyType ∧ n.isScalar = false := by
  cases n with
  | unresolved | seq _ | map _ =>
    cases h
    exact ⟨rfl, rfl⟩
  | bool b => cases b <;> cases h
  | null | int _ | real _ | str _ => cases h

theorem realToJson_eq_error {text : String} (h : realToJson text = .error e) :
    e = .realSpelling ∧ Literal.readBinary64 text.toList = none := by
  rw [realToJson] at h
  split at h
  · next hnone =>
    cases h
    exact ⟨rfl, hnone⟩
  · cases h

theorem realToJson_eq_ok {text : String} (h : realToJson text = .ok v) :
    ∃ x, Literal.readBinary64 text.toList = some x ∧
      v = if x.isFinite then .num (.float x) else .null := by
  rw [realToJson] at h
  split at h
  · cases h
  · next x hx =>
    cases h
    exact ⟨x, hx, rfl⟩

/-! ## Conversions that fail -/

mutual

theorem obstructs_of_toJson : (n : Node) → {e : Unrepresentable} → n.toJson = .error e →
    n.Obstructs e
  | .null, e, h | .bool _, e, h | .int _, e, h | .str _, e, h => by cases h
  | .unresolved, e, h => by
    cases h
    exact .unresolved (.here _)
  | .real text, e, h => by
    obtain ⟨rfl, hspelling⟩ := realToJson_eq_error h
    exact .realSpelling (.here _) hspelling
  | .seq ns, e, h => by
    rw [toJson, bind_eq_error] at h
    obtain hitems | ⟨vs, -, hok⟩ := h
    · obtain ⟨n, hn, hobstructs⟩ := obstructs_of_itemsToJson ns hitems
      exact hobstructs.of_part (.item hn)
    · cases hok
  | .map es, e, h => by
    rw [toJson, bind_eq_error] at h
    obtain hentries | ⟨ms, -, hok⟩ := h
    · obtain ⟨entry, he, ⟨rfl, hkey⟩ | hobstructs⟩ := obstructs_of_entriesToJson es hentries
      · exact .keyType (.here _) he hkey
      · exact hobstructs.of_part (.value he)
    · cases hok

theorem obstructs_of_itemsToJson : (ns : List Node) → {e : Unrepresentable} →
    itemsToJson ns = .error e → ∃ n ∈ ns, n.Obstructs e
  | [], e, h => by cases h
  | n :: ns, e, h => by
    rw [itemsToJson, bind_eq_error] at h
    obtain hfirst | ⟨v, -, h⟩ := h
    · exact ⟨n, List.mem_cons_self, obstructs_of_toJson n hfirst⟩
    rw [bind_eq_error] at h
    obtain hothers | ⟨vs, -, hok⟩ := h
    · obtain ⟨m, hm, hobstructs⟩ := obstructs_of_itemsToJson ns hothers
      exact ⟨m, List.mem_cons_of_mem n hm, hobstructs⟩
    · cases hok

theorem obstructs_of_entriesToJson : (es : List (Node × Node)) → {e : Unrepresentable} →
    entriesToJson es = .error e →
    ∃ entry ∈ es, (e = .keyType ∧ entry.1.isScalar = false) ∨ entry.2.Obstructs e
  | [], e, h => by cases h
  | (k, n) :: es, e, h => by
    rw [entriesToJson, bind_eq_error] at h
    obtain hkey | ⟨key, -, h⟩ := h
    · exact ⟨(k, n), List.mem_cons_self, .inl (keyText_eq_error hkey)⟩
    rw [bind_eq_error] at h
    obtain hvalue | ⟨v, -, h⟩ := h
    · exact ⟨(k, n), List.mem_cons_self, .inr (obstructs_of_toJson n hvalue)⟩
    rw [bind_eq_error] at h
    obtain hothers | ⟨ms, -, hok⟩ := h
    · obtain ⟨entry, he, hobstructs⟩ := obstructs_of_entriesToJson es hothers
      exact ⟨entry, List.mem_cons_of_mem _ he, hobstructs⟩
    · cases hok

end

/-! ## Conversions that succeed -/

/-- What a conversion comes to has a JSON form if the whole has one. -/
theorem exists_becomes_of_reaches (h : n.Reaches m) (hv : n.Becomes v) : ∃ w, m.Becomes w := by
  induction h generalizing v with
  | here n => exact ⟨v, hv⟩
  | item hn _ ih =>
    obtain ⟨vs, hvs, -⟩ := becomes_seq hv
    obtain ⟨w, -, hw⟩ := exists_of_forall₂ hvs _ hn
    exact ih hw
  | value he _ ih =>
    obtain ⟨ms, hms, -⟩ := becomes_map hv
    obtain ⟨member, -, -, hw⟩ := exists_of_forall₂ (forall₂_of_entriesToJson hms) _ he
    exact ih hw

/-- What stands on a path in a document has its JSON form on that path. -/
theorem exists_becomes_of_along? {path : List Branch} (hv : n.Becomes v)
    (h : n.along? path = some m) : ∃ w, v.along? path = some w ∧ m.Becomes w := by
  have hrel := rel_along? hv path
  rw [h] at hrel
  generalize v.along? path = w? at hrel ⊢
  cases hrel with
  | some hw => exact ⟨_, rfl, hw⟩

theorem not_obstructs_of_becomes (hv : n.Becomes v) : ¬ n.Obstructs e := by
  intro h
  cases h with
  | unresolved h =>
    obtain ⟨w, hw⟩ := exists_becomes_of_reaches h hv
    cases hw
  | @keyType es entry h he hkey =>
    obtain ⟨w, hw⟩ := exists_becomes_of_reaches h hv
    obtain ⟨ms, hms, -⟩ := becomes_map hw
    obtain ⟨member, -, htext, -⟩ := exists_of_forall₂ (forall₂_of_entriesToJson hms) _ he
    rw [isScalar_of_keyText htext] at hkey
    cases hkey
  | realSpelling h hspelling =>
    obtain ⟨w, hw⟩ := exists_becomes_of_reaches h hv
    obtain ⟨x, hx, -⟩ := realToJson_eq_ok hw
    rw [hspelling] at hx
    cases hx

/-- A node has a JSON form unless something in it has none. -/
theorem toJson_eq_error_iff : (∃ e, n.toJson = .error e) ↔ ∃ e, n.Obstructs e := by
  constructor
  · rintro ⟨e, h⟩
    exact ⟨e, obstructs_of_toJson n h⟩
  · rintro ⟨e, hobstructs⟩
    cases h : n.toJson with
    | error e' => exact ⟨e', rfl⟩
    | ok v => exact absurd hobstructs (not_obstructs_of_becomes h)

/-! ## Documents that have been read -/

/-- The words for infinity and not-a-number that begin with a point behind their sign. -/
def pointedWords : List String :=
  [".inf", ".Inf", ".INF", "+.inf", "+.Inf", "+.INF", "-.inf", "-.Inf", "-.INF", ".nan", ".NAN"]

theorem not_decimal_of_mem_pointedWords {text : String} (h : text ∈ pointedWords) :
    Literal.readBinary64 text.toList = none := by
  have hall : pointedWords.all fun word => (Literal.readBinary64 word.toList).isNone := by
    decide +kernel
  exact Option.isNone_iff_eq_none.1 (List.all_eq_true.1 hall text h)

/-- Of what is spelled like a real number only these words are no decimals. -/
theorem not_decimal_iff {text : String} (h : isReal text = true) :
    Literal.readBinary64 text.toList = none ↔ text ∈ pointedWords := by
  refine ⟨fun hnone => ?_, not_decimal_of_mem_pointedWords⟩
  rw [isReal, hnone, Option.isSome_none, Bool.or_false, List.contains_iff_mem] at h
  -- the one word among those of the language that is a decimal as well
  have hword : text ≠ "NaN" := by
    rintro rfl
    exact absurd hnone (by decide +kernel)
  simpa [pointedWords, hword] using h

theorem proper_of_reaches (h : n.Reaches m) (hn : n.Proper) : m.Proper := by
  induction h with
  | here n => exact hn
  | item hmem _ ih => exact ih (itemsProper_iff.1 hn _ hmem)
  | value he _ ih => exact ih (entriesProper_iff.1 hn _ he).2

/-- A document that has been read has a JSON form unless it has an unresolved node, a mapping
with a collection for a key or a number spelled with one of the words that begin with a point;
the error names one of these. In the JSON form every whole number is the same number, and every
real number is the one that its text denotes, or null where that is infinite or none. -/
theorem toJson_of_documents {text : List Char} (hread : documents text = .ok ns) (hn : n ∈ ns) :
    ((∃ e, n.toJson = .error e) ↔
      n.Reaches .unresolved ∨
      (∃ es, n.Reaches (.map es) ∧ ∃ entry ∈ es, entry.1.isScalar = false) ∨
      ∃ word ∈ pointedWords, n.Reaches (.real word)) ∧
    (∀ e, n.toJson = .error e → n.Obstructs e) ∧
    ∀ v, n.Becomes v → ∀ path,
      (∀ i, n.along? path = some (.int i) → v.along? path = some (.num (.int i))) ∧
      ∀ spelling, n.along? path = some (.real spelling) →
        ∃ x, Literal.readBinary64 spelling.toList = some x ∧
          v.along? path = some (if x.isFinite then .num (.float x) else .null) := by
  refine ⟨⟨fun herror => ?_, fun hobstacle => toJson_eq_error_iff.2 ?_⟩,
    fun e => obstructs_of_toJson n, fun v hv path => ⟨fun i hi => ?_, fun spelling hs => ?_⟩⟩
  · obtain ⟨e, hobstructs⟩ := toJson_eq_error_iff.1 herror
    cases hobstructs with
    | unresolved h => exact .inl h
    | @keyType es entry h he hkey => exact .inr (.inl ⟨es, h, entry, he, hkey⟩)
    | @realSpelling spelling h hspelling =>
      -- what has been read is spelled like a real number, wherever in the document it stands
      have hreal : isReal spelling = true :=
        proper_of_reaches h (proper_of_documents hread n hn)
      exact .inr (.inr ⟨spelling, (not_decimal_iff hreal).1 hspelling, h⟩)
  · obtain h | ⟨es, h, entry, he, hkey⟩ | ⟨word, hword, h⟩ := hobstacle
    · exact ⟨_, .unresolved h⟩
    · exact ⟨_, .keyType h he hkey⟩
    · exact ⟨_, .realSpelling h (not_decimal_of_mem_pointedWords hword)⟩
  · obtain ⟨w, hw, hform⟩ := exists_becomes_of_along? hv hi
    cases hform
    exact hw
  · obtain ⟨w, hw, hform⟩ := exists_becomes_of_along? hv hs
    obtain ⟨x, hx, rfl⟩ := realToJson_eq_ok hform
    exact ⟨x, hx, hw⟩

theorem toJson_of_documents_infinite :
    ∃ n v, documents "count: 3\nlimit: 1e999\n".toList = .ok [n] ∧ n.Becomes v ∧
      v.along? [.key "count"] = some (.num (.int 3)) ∧ v.along? [.key "limit"] = some .null := by
  have hread : documents "count: 3\nlimit: 1e999\n".toList =
      .ok [.map [(.str "count", .int 3), (.str "limit", .real "1e999")]] := by decide +kernel
  have hv : Becomes (.map [(.str "count", .int 3), (.str "limit", .real "1e999")])
      (.obj [("count", .num (.int 3)), ("limit", .null)]) := by
    unfold Becomes
    decide +kernel
  obtain ⟨-, -, hforms⟩ := toJson_of_documents hread (List.mem_singleton_self _)
  refine ⟨_, _, hread, hv, (hforms _ hv [.key "count"]).1 3 rfl, ?_⟩
  obtain ⟨x, hx, hlimit⟩ := (hforms _ hv [.key "limit"]).2 "1e999" rfl
  obtain rfl : Binary64.infinity false = x := Option.some.inj (by rw [← hx]; decide +kernel)
  exact hlimit

/-- Infinity has no JSON form if it is spelled with a point, though nothing is unresolved and all
keys are scalars; spelled without one it is null. -/
theorem pointed_word_has_no_json :
    (∃ n, documents "limit: .inf\n".toList = .ok [n] ∧ ¬ n.Reaches .unresolved ∧
      (∀ es, n.Reaches (.map es) → ∀ entry ∈ es, entry.1.isScalar = true) ∧
      n.along? [.key "limit"] = some (.real ".inf") ∧ n.toJson = .error .realSpelling) ∧
    ∃ n, documents "limit: inf\n".toList = .ok [n] ∧
      n.Becomes (.obj [("limit", .null)]) := by
  have hreaches : ∀ {m}, Reaches (.map [(.str "limit", .real ".inf")]) m →
      m = .map [(.str "limit", .real ".inf")] ∨ m = .real ".inf" := by
    intro m h
    cases h with
    | here => exact .inl rfl
    | value he h =>
      obtain rfl := List.mem_singleton.1 he
      cases h
      exact .inr rfl
  refine ⟨⟨.map [(.str "limit", .real ".inf")], by decide +kernel, fun h => ?_,
    fun es h entry he => ?_, rfl, by decide +kernel⟩, .map [(.str "limit", .real "inf")],
    by decide +kernel, ?_⟩
  · obtain hm | hm := hreaches h <;> cases hm
  · obtain hm | hm := hreaches h
    · cases hm
      obtain rfl := List.mem_singleton.1 he
      rfl
    · cases hm
  · unfold Becomes
    decide +kernel

end WorkspaceTrust.Yaml.Node
