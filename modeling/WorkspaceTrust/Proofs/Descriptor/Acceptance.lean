import Mathlib.Data.List.Perm.Basic
import WorkspaceTrust.Proofs.Descriptor.Order

/-!
# Which texts are descriptors

`Manifest.Describes` says of a document which object it describes, and
`Manifest.Refused` why it describes none. A stream is a descriptor if
each of its documents describes an object and no two of these have the
same kind and name (`addDocuments_eq_ok_iff`). The objects of the
descriptor are then those of the documents, one for each, whatever their
order.

Otherwise loading ends at one document: all before it have been added, and
it is refused or describes an object whose kind and name are taken
(`addDocuments_eq_error_iff`, `Faulty`). `load_exact` says all this of a
text.
-/

namespace WorkspaceTrust

/-! ## Single documents -/

namespace Manifest

/-- The object is what is read from the document. -/
def ReadFrom (v : Json) : Manifest → Prop
  | .configMap c => ConfigMap.ofJson v = .ok c
  | .pod p => Pod.ofJson v = .ok p

/-- The document is an object of a known kind, has the shape of that kind, and has a name. -/
structure Describes (v : Json) (m : Manifest) : Prop where
  kind : v.get? "kind" = some (.str m.kindName)
  shape : m.ReadFrom v
  name : m.name ≠ ""

/-- Why a document at a position describes no object. Each check is made if the ones before
it have succeeded. -/
inductive Refused (position : Nat) (v : Json) : LoadError → Prop
  | missingKind (h : ∀ kind, v.get? "kind" ≠ some (.str kind)) :
      Refused position v (.missingKind position)
  | unsupportedKind {kind : String} (h : v.get? "kind" = some (.str kind))
      (hpod : kind ≠ Pod.kindName) (hmap : kind ≠ ConfigMap.kindName) :
      Refused position v (.unsupportedKind position kind)
  | podShape {fault : ShapeError} (h : v.get? "kind" = some (.str Pod.kindName))
      (hread : Pod.ofJson v = .error fault) : Refused position v (.shape Pod.kindName fault)
  | configMapShape {fault : ShapeError} (h : v.get? "kind" = some (.str ConfigMap.kindName))
      (hread : ConfigMap.ofJson v = .error fault) :
      Refused position v (.shape ConfigMap.kindName fault)
  | missingName {m : Manifest} (h : v.get? "kind" = some (.str m.kindName)) (hread : m.ReadFrom v)
      (hname : m.name = "") : Refused position v (.missingName m.kindName position)

variable {position : Nat} {v : Json} {m : Manifest} {kind : String} {e : LoadError}

theorem bind_asString?_eq_some {v? : Option Json} {s : String} :
    v?.bind Json.asString? = some s ↔ v? = some (.str s) := by
  rcases v? with - | v
  · simp
  · cases v <;> simp [Json.asString?]

theorem ofKind_eq_ok_iff : ofKind position kind v = .ok m ↔ kind = m.kindName ∧ m.ReadFrom v := by
  have hne : ConfigMap.kindName ≠ Pod.kindName := by decide
  rw [ofKind]
  split
  · next hkind =>
    subst hkind
    cases m <;> simp [map_eq_ok, mapError_eq_ok, kindName, ReadFrom, hne.symm]
  · next hpod =>
    split
    · next hkind =>
      subst hkind
      cases m <;> simp [map_eq_ok, mapError_eq_ok, kindName, ReadFrom, hne]
    · next hmap => cases m <;> simp [kindName, hpod, hmap]

/-- A document is taken for an object exactly if it describes it. -/
theorem ofDocument_eq_ok_iff : ofDocument position v = .ok m ↔ Describes v m := by
  rw [ofDocument]
  constructor
  · intro h
    split at h
    · cases h
    · next kind hkind =>
      obtain ⟨n, hn, h⟩ := bind_eq_ok.1 h
      obtain ⟨rfl, hread⟩ := ofKind_eq_ok_iff.1 hn
      split at h
      · cases h
      · next hname =>
        cases h
        exact ⟨bind_asString?_eq_some.1 hkind, hread, hname⟩
  · intro h
    simp only [bind_asString?_eq_some.2 h.kind]
    refine bind_eq_ok.2 ⟨m, ofKind_eq_ok_iff.2 ⟨rfl, h.shape⟩, if_neg h.name⟩

theorem bind_asString?_eq_none {v? : Option Json} :
    v?.bind Json.asString? = none ↔ ∀ s, v? ≠ some (.str s) := by
  rcases v? with - | v
  · simp
  · cases v <;> simp [Json.asString?]

theorem refused_of_ofKind (hkind : v.get? "kind" = some (.str kind))
    (h : ofKind position kind v = .error e) : Refused position v e := by
  rw [ofKind] at h
  split at h
  · next hpod =>
    subst hpod
    cases hread : Pod.ofJson v with
    | ok p => simp [hread, Except.mapError, Except.map] at h
    | error fault =>
      rw [hread] at h
      cases h
      exact .podShape hkind hread
  · next hpod =>
    split at h
    · next hmap =>
      subst hmap
      cases hread : ConfigMap.ofJson v with
      | ok c => simp [hread, Except.mapError, Except.map] at h
      | error fault =>
        rw [hread] at h
        cases h
        exact .configMapShape hkind hread
    · next hmap =>
      cases h
      exact .unsupportedKind hkind hpod hmap

theorem refused_of_ofDocument (h : ofDocument position v = .error e) : Refused position v e := by
  rw [ofDocument] at h
  split at h
  · next hnone =>
    cases h
    exact .missingKind (bind_asString?_eq_none.1 hnone)
  · next kind hkind =>
    have hkind := bind_asString?_eq_some.1 hkind
    cases hn : ofKind position kind v with
    | error e' =>
      rw [hn] at h
      cases h
      exact refused_of_ofKind hkind hn
    | ok n =>
      obtain ⟨rfl, hread⟩ := ofKind_eq_ok_iff.1 hn
      rw [hn, ok_bind] at h
      split at h
      · next hname =>
        cases h
        exact .missingName hkind hread hname
      · cases h

/-- A document is refused with an error exactly for one of the reasons above. -/
theorem ofDocument_eq_error_iff : ofDocument position v = .error e ↔ Refused position v e := by
  refine ⟨refused_of_ofDocument, fun h => ?_⟩
  have hne : ConfigMap.kindName ≠ Pod.kindName := by decide
  rw [ofDocument]
  cases h with
  | missingKind h => simp only [bind_asString?_eq_none.2 h]
  | unsupportedKind h hpod hmap =>
    simp only [bind_asString?_eq_some.2 h, ofKind, if_neg hpod, if_neg hmap]
    rfl
  | podShape h hread =>
    simp only [bind_asString?_eq_some.2 h, ofKind, if_true, hread]
    rfl
  | configMapShape h hread =>
    simp only [bind_asString?_eq_some.2 h, ofKind, if_neg hne, if_true, hread]
    rfl
  | missingName h hread hname =>
    simp only [bind_asString?_eq_some.2 h, ofKind_eq_ok_iff.2 ⟨rfl, hread⟩, ok_bind, if_pos hname]

end Manifest

/-! ## All documents -/

namespace Descriptor

variable {d d' : Descriptor} {position : Nat} {vs : List Json} {v : Json} {m : Manifest}
  {ms : List Manifest} {e : LoadError}

/-- Why the document at a position fails after documents that describe these objects. -/
inductive Faulty (earlier : List Manifest) (position : Nat) (v : Json) : LoadError → Prop
  | refused {e : LoadError} (h : Manifest.Refused position v e) : Faulty earlier position v e
  | duplicatePod {p : Pod} (h : Manifest.Describes v (.pod p))
      (htaken : (Manifest.pod p).tag ∈ earlier.map Manifest.tag) :
      Faulty earlier position v (.duplicatePod p.metadata.name)
  | duplicateConfigMap {c : ConfigMap} (h : Manifest.Describes v (.configMap c))
      (htaken : (Manifest.configMap c).tag ∈ earlier.map Manifest.tag) :
      Faulty earlier position v (.duplicateConfigMap c.metadata.name)

/-- The descriptor has the object under its name. -/
def Holds (d : Descriptor) : Manifest → Prop
  | .configMap c => d.configMaps.get? c.metadata.name = some c
  | .pod p => d.pods.get? p.metadata.name = some p

/-- The descriptor with these objects added one after the other. -/
def addAll (ms : List Manifest) (d : Descriptor) : Descriptor := ms.foldl (fun d m => d.add m) d

theorem hasNameOf_addAll (ms : List Manifest) (m : Manifest) : ∀ d : Descriptor,
    (d.addAll ms).hasNameOf m = (decide (m.tag ∈ ms.map Manifest.tag) || d.hasNameOf m) := by
  induction ms with
  | nil => exact fun d => by simp [addAll]
  | cons m' ms ih =>
    intro d
    refine (ih (d.add m')).trans ?_
    rw [hasNameOf_add]
    by_cases h : m'.tag = m.tag
    · simp [h]
    · simp [h, Ne.symm h]

theorem hasNameOf_empty (m : Manifest) : empty.hasNameOf m = false := by cases m <;> rfl

/-- Documents can be added if each describes an object whose kind and name are not taken. -/
theorem addDocuments_eq_ok_iff : ∀ {position : Nat} {d : Descriptor},
    addDocuments position vs d = .ok d' ↔ ∃ ms, List.Forall₂ Manifest.Describes vs ms ∧
      (ms.map Manifest.tag).Nodup ∧ (∀ m ∈ ms, d.hasNameOf m = false) ∧ d' = d.addAll ms := by
  induction vs with
  | nil =>
    intro position d
    constructor
    · intro h
      cases h
      exact ⟨[], .nil, List.nodup_nil, nofun, rfl⟩
    · rintro ⟨ms, hms, -, -, rfl⟩
      cases hms
      rfl
  | cons v vs ih =>
    intro position d
    simp only [addDocuments, bind_eq_ok, Manifest.ofDocument_eq_ok_iff, addNew_eq_ok]
    constructor
    · rintro ⟨m, hm, _, ⟨hnew, rfl⟩, h⟩
      obtain ⟨ms, hms, hnodup, hfree, rfl⟩ := ih.1 h
      have hboth : ∀ n ∈ ms, m.tag ≠ n.tag ∧ d.hasNameOf n = false := fun n hn => by
        simpa [hasNameOf_add] using hfree n hn
      refine ⟨m :: ms, .cons hm hms, List.nodup_cons.2 ⟨fun hmem => ?_, hnodup⟩,
        List.forall_mem_cons.2 ⟨hnew, fun n hn => (hboth n hn).2⟩, rfl⟩
      obtain ⟨n, hn, heq⟩ := List.mem_map.1 hmem
      exact (hboth n hn).1 heq.symm
    · rintro ⟨_, hms, hnodup, hfree, rfl⟩
      obtain ⟨m, ms, hm, hothers, rfl⟩ := List.forall₂_cons_left_iff.1 hms
      obtain ⟨hnew, hfree⟩ := List.forall_mem_cons.1 hfree
      obtain ⟨hnot, hnodup⟩ := List.nodup_cons.1 hnodup
      refine ⟨m, hm, _, ⟨hnew, rfl⟩, ih.2 ⟨ms, hothers, hnodup, fun n hn => ?_, rfl⟩⟩
      have hne : m.tag ≠ n.tag := fun heq => hnot (heq ▸ List.mem_map_of_mem hn)
      simp [hasNameOf_add, hne, hfree n hn]

/-- Adds the object that the document at a position describes. -/
def addDocument (position : Nat) (v : Json) (d : Descriptor) : Except LoadError Descriptor := do
  let m ← Manifest.ofDocument position v
  d.addNew m

theorem addDocuments_cons (position : Nat) (v : Json) (vs : List Json) (d : Descriptor) :
    addDocuments position (v :: vs) d =
      d.addDocument position v >>= addDocuments (position + 1) vs := (bind_assoc _ _ _).symm

theorem addDocuments_append (before after : List Json) : ∀ (position : Nat) (d : Descriptor),
    addDocuments position (before ++ after) d =
      addDocuments position before d >>= addDocuments (position + before.length) after := by
  induction before with
  | nil => exact fun _ _ => rfl
  | cons v before ih =>
    intro position d
    have hlength : position + (v :: before).length = position + 1 + before.length := by
      rw [List.length_cons, Nat.add_comm before.length, Nat.add_assoc]
    rw [List.cons_append, addDocuments_cons, addDocuments_cons, bind_assoc, hlength]
    exact congrArg _ (funext (ih (position + 1)))

/-- Adding documents fails at one of them, after all before it have been added. -/
theorem addDocuments_eq_error_iff : ∀ {position : Nat} {d : Descriptor},
    addDocuments position vs d = .error e ↔ ∃ before v after d', vs = before ++ v :: after ∧
      addDocuments position before d = .ok d' ∧
      d'.addDocument (position + before.length) v = .error e := by
  induction vs with
  | nil =>
    intro position d
    exact ⟨nofun, fun ⟨before, v, after, d', h, _⟩ => by simp at h⟩
  | cons v vs ih =>
    intro position d
    constructor
    · intro h
      rw [addDocuments_cons] at h
      cases hhead : d.addDocument position v with
      | error e' =>
        rw [hhead] at h
        cases h
        exact ⟨[], v, vs, d, rfl, rfl, hhead⟩
      | ok d₁ =>
        rw [hhead, ok_bind] at h
        obtain ⟨before, w, after, d', rfl, hbefore, hfails⟩ := ih.1 h
        refine ⟨v :: before, w, after, d', rfl, ?_, ?_⟩
        · rw [addDocuments_cons, hhead, ok_bind, hbefore]
        · rwa [List.length_cons, Nat.add_comm before.length, ← Nat.add_assoc]
    · rintro ⟨before, w, after, d', heq, hbefore, hfails⟩
      rw [heq, addDocuments_append, hbefore, ok_bind, addDocuments_cons, hfails]
      rfl

theorem addDocument_eq_error_iff :
    (empty.addAll ms).addDocument position v = .error e ↔ Faulty ms position v e := by
  have htaken : ∀ m, (empty.addAll ms).hasNameOf m = true ↔ m.tag ∈ ms.map Manifest.tag := by
    intro m
    rw [hasNameOf_addAll, hasNameOf_empty, Bool.or_false, decide_eq_true_iff]
  rw [addDocument]
  constructor
  · intro h
    cases hm : Manifest.ofDocument position v with
    | error e' =>
      rw [hm] at h
      cases h
      exact .refused (Manifest.ofDocument_eq_error_iff.1 hm)
    | ok m =>
      have hdescribes := Manifest.ofDocument_eq_ok_iff.1 hm
      rw [hm, ok_bind] at h
      unfold addNew at h
      split at h
      · next hname =>
        cases m with
        | configMap c =>
          cases h
          exact .duplicateConfigMap hdescribes ((htaken _).1 hname)
        | pod p =>
          cases h
          exact .duplicatePod hdescribes ((htaken _).1 hname)
      · cases h
  · intro h
    cases h with
    | refused h =>
      rw [Manifest.ofDocument_eq_error_iff.2 h]
      rfl
    | duplicatePod h hmem =>
      rw [Manifest.ofDocument_eq_ok_iff.2 h, ok_bind, addNew, if_pos ((htaken _).2 hmem)]
      rfl
    | duplicateConfigMap h hmem =>
      rw [Manifest.ofDocument_eq_ok_iff.2 h, ok_bind, addNew, if_pos ((htaken _).2 hmem)]
      rfl

theorem ofDocuments_eq_ok_iff : ofDocuments vs = .ok d ↔
    ∃ ms, List.Forall₂ Manifest.Describes vs ms ∧ (ms.map Manifest.tag).Nodup ∧
      d = empty.addAll ms := by
  rw [ofDocuments, addDocuments_eq_ok_iff]
  constructor
  · rintro ⟨ms, hms, hnodup, -, hd⟩
    exact ⟨ms, hms, hnodup, hd⟩
  · rintro ⟨ms, hms, hnodup, hd⟩
    exact ⟨ms, hms, hnodup, fun m _ => hasNameOf_empty m, hd⟩

theorem ofDocuments_eq_error_iff : ofDocuments vs = .error e ↔
    ∃ before v after ms, vs = before ++ v :: after ∧ List.Forall₂ Manifest.Describes before ms ∧
      (ms.map Manifest.tag).Nodup ∧ Faulty ms (before.length + 1) v e := by
  rw [ofDocuments, addDocuments_eq_error_iff]
  constructor
  · rintro ⟨before, v, after, d', heq, hbefore, hfails⟩
    obtain ⟨ms, hms, hnodup, rfl⟩ := ofDocuments_eq_ok_iff.1 hbefore
    rw [addDocument_eq_error_iff, Nat.add_comm] at hfails
    exact ⟨before, v, after, ms, heq, hms, hnodup, hfails⟩
  · rintro ⟨before, v, after, ms, heq, hms, hnodup, hfaulty⟩
    refine ⟨before, v, after, _, heq, ofDocuments_eq_ok_iff.2 ⟨ms, hms, hnodup, rfl⟩, ?_⟩
    rwa [addDocument_eq_error_iff, Nat.add_comm]

/-! ## What has been loaded -/

theorem holds_add (d : Descriptor) (m m' : Manifest) :
    (d.add m').Holds m ↔ m = m' ∨ m.tag ≠ m'.tag ∧ d.Holds m := by
  have hne : ConfigMap.kindName ≠ Pod.kindName := by decide
  have hinsert : ∀ {α : Type} (map : SortedMap String α) (j k : String) (a b : α), (j ≠ k → a ≠ b) →
      ((map.insert j a).get? k = some b ↔ b = a ∨ k ≠ j ∧ map.get? k = some b) := by
    intro α map j k a b hab
    rw [SortedMap.get?_insert]
    by_cases h : j = k
    · simp [h, eq_comm]
    · simp [h, Ne.symm h, (hab h).symm]
  cases m with
  | configMap c =>
    cases m' with
    | configMap c' =>
      have := hinsert d.configMaps c'.metadata.name c.metadata.name c' c
        fun h heq => h (heq ▸ rfl)
      simpa [Holds, add, Manifest.tag, Manifest.kindName, Manifest.name] using this
    | pod p => simp [Holds, add, Manifest.tag, Manifest.kindName, hne]
  | pod p =>
    cases m' with
    | configMap c => simp [Holds, add, Manifest.tag, Manifest.kindName, hne.symm]
    | pod p' =>
      have := hinsert d.pods p'.metadata.name p.metadata.name p' p fun h heq => h (heq ▸ rfl)
      simpa [Holds, add, Manifest.tag, Manifest.kindName, Manifest.name] using this

/-- What stands under its name after objects with different kinds or names have been added:
these objects, and what was there under no name of theirs. -/
theorem holds_addAll (hnodup : (ms.map Manifest.tag).Nodup) : ∀ {d : Descriptor},
    (d.addAll ms).Holds m ↔ m ∈ ms ∨ m.tag ∉ ms.map Manifest.tag ∧ d.Holds m := by
  induction ms with
  | nil => exact fun {d} => by simp [addAll]
  | cons n ms ih =>
    intro d
    obtain ⟨hn, hms⟩ := List.nodup_cons.1 hnodup
    have hstep : (d.addAll (n :: ms)).Holds m ↔ ((d.add n).addAll ms).Holds m := Iff.rfl
    rw [hstep, ih hms, holds_add, List.map_cons, List.mem_cons, List.mem_cons]
    constructor
    · rintro (hmem | ⟨hnot, rfl | ⟨hne, hd⟩⟩)
      · exact .inl (.inr hmem)
      · exact .inl (.inl rfl)
      · exact .inr ⟨fun h => h.elim hne hnot, hd⟩
    · rintro ((rfl | hmem) | ⟨hnot, hd⟩)
      · exact .inr ⟨hn, .inl rfl⟩
      · exact .inl hmem
      · exact .inr ⟨fun h => hnot (.inr h), .inr ⟨fun h => hnot (.inl h), hd⟩⟩

theorem mem_values_iff {α : Type} {map : SortedMap String α} {name : α → String} {a : α}
    (h : ∀ e ∈ map.entries, e.1 = name e.2) : a ∈ map.values ↔ map.get? (name a) = some a := by
  rw [SortedMap.get?_eq_some_iff]
  constructor
  · intro hmem
    obtain ⟨e, he, rfl⟩ := List.mem_map.1 hmem
    rwa [← h e he]
  · exact fun hmem => List.mem_map.2 ⟨_, hmem, rfl⟩

/-- The manifests of a sound descriptor are what it has under their names. -/
theorem Sound.mem_manifests_iff (h : d.Sound) : m ∈ d.manifests ↔ d.Holds m := by
  have hmaps := fun c => @mem_values_iff _ d.configMaps (fun c => c.metadata.name) c
    fun e he => (h.configMaps e he).1
  have hpods := fun p => @mem_values_iff _ d.pods (fun p => p.metadata.name) p
    fun e he => (h.pods e he).1
  cases m with
  | configMap c => simpa [manifests, Holds] using hmaps c
  | pod p => simpa [manifests, Holds] using hpods p

/-- A sound descriptor that is made of objects has these for its manifests. -/
theorem Sound.manifests_perm (h : (empty.addAll ms).Sound) (hnodup : (ms.map Manifest.tag).Nodup) :
    (empty.addAll ms).manifests.Perm ms := by
  refine (List.perm_ext_iff_of_nodup h.nodup_tags.of_map hnodup.of_map).2 fun m => ?_
  have hnone : ¬ empty.Holds m := by cases m <;> exact nofun
  rw [h.mem_manifests_iff, holds_addAll hnodup]
  simp [hnone]

/-- Documents in another order make the same descriptor. -/
theorem ofDocuments_of_perm {vs' : List Json} (h : ofDocuments vs = .ok d) (hperm : vs'.Perm vs) :
    ofDocuments vs' = .ok d := by
  obtain ⟨ms, hms, hnodup, rfl⟩ := ofDocuments_eq_ok_iff.1 h
  obtain ⟨ms', hms', hsame⟩ := List.perm_comp_forall₂ hperm hms
  have hnodup' : (ms'.map Manifest.tag).Nodup := (hsame.map _).nodup_iff.2 hnodup
  exact ofDocuments_eq_ok_iff.2 ⟨ms', hms', hnodup', (foldl_add_perm hsame hnodup empty).symm⟩

/-! ## Texts -/

theorem load_of_read {text : String} (h : Yaml.read text = .ok vs) :
    load text = ofDocuments vs := by
  rw [load, h]
  rfl

theorem load_of_malformed {text : String} {fault : Yaml.ReadError}
    (h : Yaml.read text = .error fault) : load text = .error (.ofYaml fault) := by
  rw [load, h]
  rfl

end Descriptor

/-- The documents that are read are those of the text that are not empty, in their order. -/
theorem Yaml.documents_of_read {text : String} {vs : List Json} (h : Yaml.read text = .ok vs) :
    ∃ nodes, Node.documents text.toList = .ok nodes ∧
      List.Forall₂ (fun n v => n.toJson = .ok v) (nodes.filter fun n => !n.isEmpty) vs := by
  simp only [Yaml.read, bind_eq_ok, mapError_eq_ok] at h
  obtain ⟨nodes, hnodes, h⟩ := h
  exact ⟨nodes, hnodes, forall₂_of_mapM_eq_ok h⟩

namespace Descriptor

/-- Exactly which texts are descriptors, which descriptors these are, and what the error is
otherwise: that of the text as such, or that of the first document that fails. Documents are
counted without the empty ones. -/
theorem load_exact (text : String) :
    ((∃ d, load text = .ok d) ↔ ∃ docs ms, Yaml.read text = .ok docs ∧
      List.Forall₂ Manifest.Describes docs ms ∧ (ms.map Manifest.tag).Nodup)
    ∧ (∀ d docs, load text = .ok d → Yaml.read text = .ok docs →
        (∃ ms, List.Forall₂ Manifest.Describes docs ms ∧ d.manifests.Perm ms ∧
          ∀ m ∈ ms, d.Holds m) ∧
        ∀ text' docs', Yaml.read text' = .ok docs' → docs'.Perm docs → load text' = .ok d)
    ∧ (∀ e, load text = .error e ↔
        (∃ fault, Yaml.read text = .error fault ∧ e = .ofYaml fault) ∨
        ∃ before v after ms, Yaml.read text = .ok (before ++ v :: after) ∧
          List.Forall₂ Manifest.Describes before ms ∧ (ms.map Manifest.tag).Nodup ∧
          Faulty ms (before.length + 1) v e)
    ∧ ∀ docs, Yaml.read text = .ok docs → ∃ nodes, Yaml.Node.documents text.toList = .ok nodes ∧
        List.Forall₂ (fun n v => n.toJson = .ok v) (nodes.filter fun n => !n.isEmpty) docs := by
  refine ⟨?_, fun d docs hload hread => ?_, fun e => ?_, fun docs => Yaml.documents_of_read⟩
  · cases hread : Yaml.read text with
    | error fault => simp [load_of_malformed hread]
    | ok docs =>
      simp only [load_of_read hread, ofDocuments_eq_ok_iff, Except.ok.injEq]
      constructor
      · rintro ⟨d, ms, hms, hnodup, -⟩
        exact ⟨docs, ms, rfl, hms, hnodup⟩
      · rintro ⟨_, ms, rfl, hms, hnodup⟩
        exact ⟨_, ms, hms, hnodup, rfl⟩
  · have hdocs := (load_of_read hread).symm.trans hload
    obtain ⟨ms, hms, hnodup, rfl⟩ := ofDocuments_eq_ok_iff.1 hdocs
    refine ⟨⟨ms, hms, (sound_of_load hload).manifests_perm hnodup, fun m hm => ?_⟩,
      fun text' docs' hread' hperm => ?_⟩
    · exact (holds_addAll hnodup).2 (.inl hm)
    · rw [load_of_read hread']
      exact ofDocuments_of_perm hdocs hperm
  · cases hread : Yaml.read text with
    | error fault => simp [load_of_malformed hread, eq_comm]
    | ok docs =>
      rw [load_of_read hread, ofDocuments_eq_error_iff]
      simp

end Descriptor

end WorkspaceTrust
