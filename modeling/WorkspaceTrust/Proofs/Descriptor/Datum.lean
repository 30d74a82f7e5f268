import WorkspaceTrust.Proofs.Descriptor.Acceptance
import WorkspaceTrust.Proofs.Manifest.Table
import WorkspaceTrust.Proofs.Yaml.Front
import WorkspaceTrust.Proofs.Yaml.Mapping

/-!
# Descriptors that are loaded from their own text

A descriptor is loaded from the text that is written for it if its texts
and keys come back. No text and no key can be left out of this: in a
descriptor that has nothing else to lose (`ofDatum`) the text or the key
comes back if the descriptor does. The tokens in front of it are known,
and what is read in its place is what is known too, or a literal scalar
of another text (`exists_scalar_of_tokens`). The rest of the tokens may be
anything, but no later entry can replace the one in question: its key is
the only one with this text (`branch?_of_entry`).
-/

namespace WorkspaceTrust

namespace Descriptor

open Yaml

/-! ## A descriptor with one datum -/

/-- The descriptor comes back when it is written and loaded. -/
def Reloads (d : Descriptor) : Prop := load (d.render .yaml) = .ok d

instance (d : Descriptor) : Decidable d.Reloads :=
  inferInstanceAs (Decidable (load (d.render .yaml) = .ok d))

/-- One config map, with one text under one key. -/
def ofDatum (key text : String) : Descriptor :=
  empty.addConfigMap ((ConfigMap.new (.named "c")).withData (.ofList [(key, text)]))

/-- What is written of a config map in front of its data. -/
def datumHead : List (String × Json) :=
  [("apiVersion", .str "v1"), ("kind", .str ConfigMap.kindName),
    ("metadata", .obj [("name", .str "c")])]

def datumJson (key text : String) : Json := .obj (datumHead ++ [("data", .obj [(key, .str text)])])

variable {key text : String}

theorem sound_ofDatum (key text : String) : (ofDatum key text).Sound :=
  sound_empty.add (m := .configMap _) ⟨rfl, by simp [ConfigMap.withData, ConfigMap.new,
    ObjectMeta.named], Extra.sound_none, Extra.sound_none⟩

theorem manifests_ofDatum (key text : String) :
    (ofDatum key text).manifests.map Manifest.toJson = [datumJson key text] := rfl

theorem isRecord_datumJson (key text : String) : ∀ v ∈ [datumJson key text], IsRecord v :=
  List.forall_mem_singleton.2 ⟨_, _, rfl⟩

theorem leaves_datumJson (key text : String) : (datumJson key text).leaves =
    Json.memberLeaves datumHead ++ [.key "data", .key key, .text text] := rfl

theorem returns_datumHead : ∀ l ∈ Json.memberLeaves datumHead, l.Returns := by
  simp only [datumHead, Json.memberLeaves, Json.leaves, List.append_nil, List.cons_append,
    List.nil_append, List.forall_mem_cons, List.not_mem_nil, false_implies, implies_true, and_true,
    Json.Leaf.Returns]
  decide +kernel

/-- What leaves have that come back has to be shown of the key and the text alone. -/
theorem forall_leaves_datumJson_iff {P : Json.Leaf → Prop} (h : ∀ l : Json.Leaf, l.Returns → P l) :
    (∀ l ∈ (datumJson key text).leaves, P l) ↔ P (.key key) ∧ P (.text text) := by
  have hdata : keyReturns "data" = true := by decide +kernel
  rw [leaves_datumJson, List.forall_mem_append, List.forall_mem_cons, List.forall_mem_cons,
    List.forall_mem_singleton, and_iff_right fun l hl => h l (returns_datumHead l hl),
    and_iff_right (h (.key "data") hdata)]

theorem lays_datumJson_iff : (∀ v ∈ [datumJson key text], ∀ l ∈ v.leaves, l.Lays) ↔
    Lays key.toList ∧ Lays text.toList := by
  rw [List.forall_mem_singleton]
  exact forall_leaves_datumJson_iff fun _ => Json.Leaf.Returns.lays

theorem streamTokens_datumJson (key text : String) : streamTokens [datumJson key text] =
    frontTokens datumHead "data" ++ [.key, textToken 4 key, .value, textToken 4 text, .blockEnd,
      .blockEnd] := rfl

/-- The config map, as the one object of the descriptor. -/
theorem eq_of_holds_ofDatum {m : Manifest} (h : (ofDatum key text).Holds m) : m = .configMap
    ((ConfigMap.new (.named "c")).withData (.ofList [(key, text)])) := by
  cases m with
  | configMap c =>
    have hentry := SortedMap.get?_eq_some_iff.1 h
    obtain ⟨-, rfl⟩ := Prod.mk.inj (List.mem_singleton.1 hentry)
    rfl
  | pod p => cases h

/-- What the data is in a document that describes the config map. -/
theorem along?_data_of_ofJson {v : Json} (hv : v.Ordered) (h : ConfigMap.ofJson v = .ok
    ((ConfigMap.new (.named "c")).withData (.ofList [(key, text)]))) :
    v.along? [.key "data"] = some (.obj [(key, .str text)]) := by
  simp only [ConfigMap.ofJson, bind_eq_ok] at h
  obtain ⟨fields, hrecord, _, -, data?, hdata, _, -, _, -, h⟩ := h
  obtain rfl := Shape.eq_object_of_record hrecord hv
  have hdata? : data?.getD .empty = .ofList [(key, text)] :=
    congrArg ConfigMap.data (Except.ok.inj h)
  obtain ⟨-, rfl⟩ | ⟨w, data, hget, rfl, hw, hread⟩ := Shape.optional_cases hv hdata
  · have hnil : [] = [(key, text)] := congrArg SortedMap.entries hdata?
    cases hnil
  · obtain rfl : data = .ofList [(key, text)] := hdata?
    obtain rfl := (Shape.keeps_texts hw hread).1
    rw [Json.along?, List.foldlM_cons]
    exact Option.bind_eq_some_iff.2 ⟨_, hget, rfl⟩

theorem exists_documents_of_reloads (h : (ofDatum key text).Reloads) :
    ∃ nodes, Node.documents (write [datumJson key text]).toList = .ok nodes := by
  obtain ⟨vs, hvs, -⟩ := bind_eq_ok.1 h
  obtain ⟨nodes, hnodes, -⟩ := documents_of_read (mapError_eq_ok.1 hvs)
  exact ⟨nodes, hnodes⟩

/-- What the data is in the document that is read if the descriptor comes back. -/
theorem exists_data_of_reloads {es : List (Node × Node)} {others : List Node}
    (h : (ofDatum key text).Reloads)
    (hnodes : Node.documents (write [datumJson key text]).toList = .ok (.map es :: others)) :
    ∃ v, (Node.map es).Becomes v ∧ v.along? [.key "data"] = some (.obj [(key, .str text)]) := by
  obtain ⟨vs, hvs, hdocs⟩ := bind_eq_ok.1 h
  have hread := mapError_eq_ok.1 hvs
  obtain ⟨nodes, hnodes', hbecomes⟩ := documents_of_read hread
  obtain rfl : Node.map es :: others = nodes := Except.ok.inj (hnodes.symm.trans hnodes')
  rw [List.filter_cons_of_pos rfl] at hbecomes
  obtain ⟨v, vs, hv, -, rfl⟩ := List.forall₂_cons_left_iff.1 hbecomes
  obtain ⟨ms, hms, hnodup, hd⟩ := ofDocuments_eq_ok_iff.1 hdocs
  obtain ⟨m, ms, hm, -, rfl⟩ := List.forall₂_cons_left_iff.1 hms
  have hholds : (ofDatum key text).Holds m := by
    rw [hd]
    exact (holds_addAll hnodup).2 (.inl (List.mem_cons_self ..))
  obtain rfl := eq_of_holds_ofDatum hholds
  exact ⟨v, hv, along?_data_of_ofJson (sound_of_read hread v (by simp)).ordered hm.shape⟩

/-- What is read for the data if the descriptor comes back and the tokens up to its first key
are as they should be. -/
theorem exists_entry_of_reloads (h : (ofDatum key text).Reloads) {style : ScalarStyle} {t : String}
    {more : List Token} (htokens : tokens (write [datumJson key text]).toList
      = .ok (frontTokens datumHead "data" ++ .key :: .scalar style t :: more)) :
    ∃ es value, (Node.ofScalar style none t, value) ∈ es ∧ (Node.map es).Proper ∧
      Node.KeysDiffer es ∧ (Node.map es).Becomes (.obj [(key, .str text)]) ∧
      ∀ style' t' more', more = .value :: .scalar style' t' :: more' →
        value = Node.ofScalar style' none t' := by
  obtain ⟨nodes, hnodes⟩ := exists_documents_of_reloads h
  obtain ⟨es, es', value, others, rfl, hdata, hentry, hvalue⟩ := documents_of_front
    returns_datumHead (by decide) (by simp [datumHead, Json.MemberKeysDiffer, Json.KeysDiffer])
    (by decide +kernel) htokens hnodes
  have hproper := Node.proper_of_documents hnodes (.map es) (by simp)
  have hdiffer := Node.inherited_mappingsSound.of_documents hnodes (.map es) (by simp)
  have hbranch : (Node.map es).along? [.key "data"] = some (.map es') := by
    have hkeyNode : keyNode "data" = .str "data" := by decide +kernel
    rw [hkeyNode] at hdata
    exact Option.bind_eq_some_iff.2 ⟨_, Node.branch?_of_entry hproper (hdiffer [] es rfl) hdata
      (by decide +kernel), rfl⟩
  obtain ⟨v, hv, hdata'⟩ := exists_data_of_reloads h hnodes
  have hrel := Node.rel_along? hv [.key "data"]
  rw [hbranch, hdata'] at hrel
  cases hrel with
  | some hbecomes =>
  exact ⟨es', value, hentry, (Node.entriesProper_iff.1 hproper _ hdata).2, hdiffer _ _ hbranch,
    hbecomes, hvalue⟩

/-! ## Nothing else comes back -/

/-- The scalar in the place of the key has its text. -/
theorem keyReturns_of_reloads (h : (ofDatum key "text").Reloads) : keyReturns key = true := by
  obtain ⟨nodes, hnodes⟩ := exists_documents_of_reloads h
  obtain ⟨us, hus, -⟩ := bind_eq_ok.1 hnodes
  have htext : textReturns "text" = true := by decide +kernel
  have hlays : (∀ v ∈ [datumJson key "text"], ∀ l ∈ v.leaves, l.Lays) ↔ Lays key.toList := by
    rw [lays_datumJson_iff, and_iff_left (lays_of_returns htext)]
  have hsplit : streamTokens [datumJson key "text"] = (frontTokens datumHead "data" ++ [.key]) ++
      textToken 4 key :: [.value, textToken 4 "text", .blockEnd, .blockEnd] :=
    streamTokens_datumJson key "text"
  obtain ⟨style, t, more, rfl, -, hkey⟩ := exists_scalar_of_tokens (isRecord_datumJson key "text")
    (by decide) hsplit (by decide +kernel) (by decide +kernel) hlays hus
  obtain ⟨es, value, hentry, -, -, hbecomes, -⟩ := exists_entry_of_reloads h (by simpa using hus)
  exact hkey (Node.keyText_of_becomes hbecomes hentry)

/-- The scalar in the place of the text is the text. -/
theorem textReturns_of_reloads (h : (ofDatum "key" text).Reloads) : textReturns text = true := by
  obtain ⟨nodes, hnodes⟩ := exists_documents_of_reloads h
  obtain ⟨us, hus, -⟩ := bind_eq_ok.1 hnodes
  have hkey : textReturns "key" = true := by decide +kernel
  have hlays : (∀ v ∈ [datumJson "key" text], ∀ l ∈ v.leaves, l.Lays) ↔ Lays text.toList := by
    rw [lays_datumJson_iff, and_iff_right (lays_of_returns hkey)]
  have hsplit : streamTokens [datumJson "key" text] =
      (frontTokens datumHead "data" ++ [.key, .scalar .plain "key", .value]) ++
        textToken 4 text :: [.blockEnd, .blockEnd] := by
    have htoken : textToken 4 "key" = .scalar .plain "key" := by decide +kernel
    rw [streamTokens_datumJson, htoken, List.append_assoc]
    rfl
  obtain ⟨style, t, more, rfl, htext, -⟩ := exists_scalar_of_tokens (isRecord_datumJson "key" text)
    (by decide) hsplit (by decide +kernel) (by decide +kernel) hlays hus
  have hus : tokens (write [datumJson "key" text]).toList = .ok (frontTokens datumHead "data" ++
      .key :: .scalar .plain "key" :: .value :: .scalar style t :: more) := by simpa using hus
  obtain ⟨es, value, hentry, hproper, hdiffer, hbecomes, hvalue⟩ := exists_entry_of_reloads h hus
  have hbranch := Node.branch?_of_entry hproper hdiffer hentry (by decide +kernel)
  have hrel := Node.rel_branch? hbecomes (.key "key")
  rw [hbranch] at hrel
  cases hrel with
  | some hstr =>
  rw [hvalue _ _ _ rfl] at hstr
  exact htext (Node.eq_str_of_becomes hstr)

/-! ## What comes back -/

theorem reloads_ofDatum (hkey : keyReturns key = true) (htext : textReturns text = true) :
    (ofDatum key text).Reloads := by
  have hreturns := (forall_leaves_datumJson_iff (P := Json.Leaf.Returns) fun _ => id).2 ⟨hkey, htext⟩
  refine (sound_ofDatum key text).load_render fun m hm => ?_
  have hm : m.toJson = datumJson key text :=
    List.mem_singleton.1 (manifests_ofDatum key text ▸ List.mem_map_of_mem hm)
  rw [hm]
  exact ⟨fun s hs => hreturns _ hs, fun k hk => hreturns _ hk⟩

/-- Whatever has been loaded and provisioned comes back if all its texts and keys do. A
descriptor with one text, and one with one key, comes back only if this text or key does. Those
that do not have a separator of lines or paragraphs, or they are spelled like numbers. -/
theorem yaml_reloads {d : Descriptor} (h : d.Reachable) (text key : String) :
    (d.TextsReturn → d.Reloads)
    ∧ ((ofDatum "key" text).Reloads ↔ textReturns text = true)
    ∧ ((ofDatum key "text").Reloads ↔ keyReturns key = true)
    ∧ (textReturns text = false → HasSeparator text ∨ SpellsMarkedInt text ∨ SpellsNonFinite text)
    ∧ (keyReturns key = false → HasSeparator key ∨ SpellsMarkedInt key) := by
  refine ⟨h.sound.load_render, ⟨textReturns_of_reloads, ?_⟩, ⟨keyReturns_of_reloads, ?_⟩,
    misspelled_of_not_textReturns, misspelled_of_not_keyReturns⟩
  · exact reloads_ofDatum (by decide +kernel)
  · exact fun hkey => reloads_ofDatum hkey (by decide +kernel)

/-- Texts that look like other values come back, also after the descriptor has been
provisioned. A word for not-a-number does not as a text, but it does as a key. -/
theorem yaml_reloads_quoted :
    let start := ofDatum "1.5" "null: [12, \"~\"]\n"
    let first := (VcsCertificateProvisioner.ofCerts.provision
      VcsCertificateProvisioner.oneCertificate ⟨"ws", none⟩ start).descriptor
    first.manifests.map Manifest.kindName = ["ConfigMap", "ConfigMap"] ∧ first.Reloads ∧
      ¬ (ofDatum "key" "NaN").Reloads ∧ (ofDatum "NaN" "text").Reloads ∧
      (HasSeparator "NaN" ∨ SpellsMarkedInt "NaN" ∨ SpellsNonFinite "NaN") := by
  intro start first
  have hload : load (start.render .yaml) = .ok start :=
    reloads_ofDatum (by decide +kernel) (by decide +kernel)
  have hreachable : first.Reachable := (Reachable.loaded hload).provisioned _ _ _
  obtain ⟨hreloads, htext, hkey, hspelled, -⟩ := yaml_reloads hreachable "NaN" "NaN"
  have hnot : textReturns "NaN" = false := by decide +kernel
  exact ⟨by decide +kernel, hreloads (by decide +kernel), fun h => by simp [htext.1 h] at hnot,
    hkey.2 (by decide +kernel), hspelled hnot⟩

/-- A word for not-a-number can be loaded as a text, and so can a text with a separator.
Neither comes back. -/
theorem loaded_not_reloads :
    (∃ source d, load source = .ok d ∧ d = ofDatum "key" "NaN" ∧ load (d.render .yaml) ≠ .ok d) ∧
    ∃ source d, load source = .ok d ∧ d = ofDatum "key" "a\u2028b" ∧ load (d.render .yaml) ≠ .ok d := by
  refine ⟨⟨"kind: ConfigMap\nmetadata:\n  name: c\ndata:\n  key: \"NaN\"\n", _, ?_, rfl, ?_⟩,
    ⟨"kind: ConfigMap\nmetadata:\n  name: c\ndata:\n  key: \"a\\Lb\"\n", _, ?_, rfl, ?_⟩⟩
  all_goals decide +kernel

end Descriptor

end WorkspaceTrust
