import WorkspaceTrust.Descriptor.Render
import WorkspaceTrust.Proofs.Descriptor.Sound
import WorkspaceTrust.Proofs.Yaml.Number

/-!
# Descriptors are read as they are written

The manifests of a sound descriptor, with their keys sorted, describe the
descriptor again (`ofDocuments_manifests`). What is read of the text that
is written for it are these manifests, if every text and every key in
them comes back (`TextsReturn`); numbers always do. Hence the descriptor
is loaded from its own text (`load_render`).
-/

namespace WorkspaceTrust

open Shape

/-! ## Single documents -/

theorem ConfigMap.get?_kind {c : ConfigMap} (h : c.Valid) :
    (c.toJson.sortKeys.get? "kind").bind Json.asString? = some ConfigMap.kindName := by
  have hget := Json.get?_sorted (@nodup_written _ c.fields c.extra rfl (by decide)) "kind"
  rw [toJson_eq]
  show Option.bind ((SortedMap.ofList _).get? "kind") _ = _
  rw [hget, ← h.kind]
  rfl

theorem Pod.get?_kind {p : Pod} (h : p.Valid) :
    (p.toJson.sortKeys.get? "kind").bind Json.asString? = some Pod.kindName := by
  have hget := Json.get?_sorted (@nodup_written _ p.fields p.extra rfl (by decide)) "kind"
  rw [toJson_eq]
  show Option.bind ((SortedMap.ofList _).get? "kind") _ = _
  rw [hget, ← h.kind]
  rfl

namespace Manifest

theorem ofDocument_toJson {m : Manifest} (h : m.Valid) (position : Nat) :
    ofDocument position m.toJson.sortKeys = .ok m := by
  have hread : (m.toJson.sortKeys.get? "kind").bind Json.asString? = some m.kindName ∧
      ofKind position m.kindName m.toJson.sortKeys = .ok m ∧ m.name ≠ "" := by
    cases m with
    | configMap c =>
      have hne : ConfigMap.kindName ≠ Pod.kindName := by decide
      refine ⟨ConfigMap.get?_kind h, ?_, h.name⟩
      simp only [ofKind, kindName, if_neg hne, if_true, toJson, (ConfigMap.stands h.sound).read]
      rfl
    | pod p =>
      refine ⟨Pod.get?_kind h, ?_, h.name⟩
      simp only [ofKind, kindName, if_true, toJson, (Pod.stands h.sound).read]
      rfl
  obtain ⟨hkind, hof, hname⟩ := hread
  simp only [ofDocument, hkind, hof, ok_bind, if_neg hname]

/-- Kind and name, under which there is at most one object. -/
def tag (m : Manifest) : String × String := (m.kindName, m.name)

end Manifest

/-- Whether a leaf comes back, as far as it is a text or a key. -/
def Json.Leaf.keepsText : Json.Leaf → Bool
  | .text s => Yaml.textReturns s
  | .key k => Yaml.keyReturns k
  | .number _ => true

namespace Descriptor

variable {d : Descriptor}

/-! ## All documents -/

theorem hasNameOf_add (m m' : Manifest) :
    (d.add m').hasNameOf m = (decide (m'.tag = m.tag) || d.hasNameOf m) := by
  have hne : ConfigMap.kindName ≠ Pod.kindName := by decide
  have hinsert : ∀ {α : Type} (map : SortedMap String α) (k j : String) (a : α),
      (map.insert k a).contains j = (decide (k = j) || map.contains j) := by
    intro α map k j a
    rw [SortedMap.contains, SortedMap.get?_insert]
    by_cases h : k = j <;> simp [h, SortedMap.contains]
  cases m <;> cases m' <;>
    simp [add, hasNameOf, Manifest.tag, Manifest.kindName, Manifest.name, hinsert, hne, hne.symm]

theorem addDocuments_toJson {ms : List Manifest} (hvalid : ∀ m ∈ ms, m.Valid)
    (hnodup : (ms.map Manifest.tag).Nodup) : ∀ {d : Descriptor} {position : Nat},
    (∀ m ∈ ms, d.hasNameOf m = false) →
    addDocuments position (ms.map fun m => m.toJson.sortKeys) d
      = .ok (ms.foldl (fun d m => d.add m) d) := by
  induction ms with
  | nil => exact fun _ => rfl
  | cons m ms ih =>
    intro d position hnew
    obtain ⟨hm, hms⟩ := List.nodup_cons.1 hnodup
    have hadd : d.addNew m = .ok (d.add m) := addNew_eq_ok.2 ⟨hnew m (by simp), rfl⟩
    rw [List.map_cons, addDocuments, Manifest.ofDocument_toJson (hvalid m (by simp)), ok_bind, hadd,
      ok_bind]
    refine ih (fun n hn => hvalid n (by simp [hn])) hms fun n hn => ?_
    have hne : m.tag ≠ n.tag := fun heq => hm (heq ▸ List.mem_map.2 ⟨n, hn, rfl⟩)
    rw [hasNameOf_add, hnew n (by simp [hn])]
    simp [hne]

theorem foldl_add_configMaps (cs : List ConfigMap) : ∀ d : Descriptor,
    (cs.map Manifest.configMap).foldl (fun d m => d.add m) d =
      { d with configMaps := cs.foldl (fun m c => m.insert c.metadata.name c) d.configMaps } := by
  induction cs with
  | nil => exact fun _ => rfl
  | cons c cs ih => exact fun d => ih (d.addConfigMap c)

theorem foldl_add_pods (ps : List Pod) : ∀ d : Descriptor,
    (ps.map Manifest.pod).foldl (fun d m => d.add m) d =
      { d with pods := ps.foldl (fun m p => m.insert p.metadata.name p) d.pods } := by
  induction ps with
  | nil => exact fun _ => rfl
  | cons p ps ih => exact fun d => ih (d.addPod p)

/-- A map whose keys are the names of its values is what its values make. -/
theorem foldl_insert_values {α : Type} {name : α → String} {m : SortedMap String α}
    (h : ∀ e ∈ m.entries, e.1 = name e.2) :
    m.values.foldl (fun m a => m.insert (name a) a) .empty = m := by
  have hstep : m.entries.foldl (fun n e => SortedMap.insert n (name e.2) e.2) SortedMap.empty
      = SortedMap.ofList m.entries := List.foldl_ext _ _ _ fun n e he => by rw [h e he]
  rw [SortedMap.values, List.foldl_map, hstep]
  exact m.ofList_entries

/-- The values of a map whose keys are their names are in the order of their names. -/
theorem values_increasing {α : Type} {name : α → String} {m : SortedMap String α}
    (h : ∀ e ∈ m.entries, e.1 = name e.2) :
    m.values.Pairwise fun a b => KeyOrder.before (name a) (name b) = true := by
  rw [SortedMap.values, List.pairwise_map]
  refine m.increasing.imp_of_mem fun hp hq hlt => ?_
  rwa [h _ hp, h _ hq] at hlt

theorem nodup_map_values {α β : Type} {name : α → String} {f : α → β} {m : SortedMap String α}
    (h : ∀ e ∈ m.entries, e.1 = name e.2) (hf : ∀ a b, f a = f b → name a = name b) :
    (m.values.map f).Nodup := by
  rw [List.Nodup, List.pairwise_map]
  exact (values_increasing h).imp fun hlt heq => KeyOrder.ne_of_before hlt (hf _ _ heq)

theorem Sound.valid (h : d.Sound) : ∀ m ∈ d.manifests, m.Valid := by
  intro m hm
  rcases List.mem_append.1 hm with hm | hm
  · obtain ⟨c, hc, rfl⟩ := List.mem_map.1 hm
    obtain ⟨e, he, rfl⟩ := List.mem_map.1 hc
    exact (h.configMaps e he).2
  · obtain ⟨p, hp, rfl⟩ := List.mem_map.1 hm
    obtain ⟨e, he, rfl⟩ := List.mem_map.1 hp
    exact (h.pods e he).2

/-- Every object stands under its own name. -/
structure Keyed (d : Descriptor) : Prop where
  configMaps : ∀ e ∈ d.configMaps.entries, e.1 = e.2.metadata.name
  pods : ∀ e ∈ d.pods.entries, e.1 = e.2.metadata.name

theorem Sound.keyed (h : d.Sound) : d.Keyed :=
  ⟨fun e he => (h.configMaps e he).1, fun e he => (h.pods e he).1⟩

theorem Keyed.nodup_tags (h : d.Keyed) : (d.manifests.map Manifest.tag).Nodup := by
  have hmaps := nodup_map_values (f := fun c => (Manifest.configMap c).tag) h.configMaps
    fun a b heq => congrArg Prod.snd heq
  have hpods := nodup_map_values (f := fun p => (Manifest.pod p).tag) h.pods
    fun a b heq => congrArg Prod.snd heq
  rw [manifests, List.map_append, List.map_map, List.map_map, List.nodup_append]
  refine ⟨hmaps, hpods, ?_⟩
  rintro t ht _ ht' rfl
  obtain ⟨c, -, hc⟩ := List.mem_map.1 ht
  obtain ⟨p, -, hp⟩ := List.mem_map.1 ht'
  have hkind : ConfigMap.kindName = Pod.kindName := congrArg Prod.fst (hc.trans hp.symm)
  exact absurd hkind (by decide)

theorem Sound.nodup_tags (h : d.Sound) : (d.manifests.map Manifest.tag).Nodup := h.keyed.nodup_tags

/-- A descriptor whose objects stand under their names is made of its manifests. -/
theorem Keyed.foldl_manifests (h : d.Keyed) :
    d.manifests.foldl (fun d m => d.add m) .empty = d := by
  rw [manifests, List.foldl_append, foldl_add_configMaps, foldl_add_pods]
  have hmaps := @foldl_insert_values _ (fun c : ConfigMap => c.metadata.name) _ h.configMaps
  have hpods := @foldl_insert_values _ (fun p : Pod => p.metadata.name) _ h.pods
  exact congr (congrArg Descriptor.mk hpods) hmaps

theorem Sound.foldl_manifests (h : d.Sound) :
    d.manifests.foldl (fun d m => d.add m) .empty = d := h.keyed.foldl_manifests

/-- The manifests of a sound descriptor describe it. -/
theorem Sound.ofDocuments_manifests (h : d.Sound) :
    ofDocuments (d.manifests.map fun m => m.toJson.sortKeys) = .ok d := by
  rw [ofDocuments, addDocuments_toJson h.valid h.nodup_tags (fun m _ => by cases m <;> rfl),
    h.foldl_manifests]

/-! ## The text -/

/-- Every text and every key of the descriptor comes back when it is written and read. -/
def TextsReturn (d : Descriptor) : Prop := ∀ m ∈ d.manifests,
  (∀ s, .text s ∈ m.toJson.leaves → Yaml.textReturns s = true) ∧
    ∀ k, .key k ∈ m.toJson.leaves → Yaml.keyReturns k = true

instance (d : Descriptor) : Decidable d.TextsReturn :=
  decidable_of_iff (∀ m ∈ d.manifests, ∀ l ∈ m.toJson.leaves, l.keepsText = true) <| by
    refine forall₂_congr fun m _ => ⟨fun h => ⟨fun s hs => h _ hs, fun k hk => h _ hk⟩, ?_⟩
    rintro ⟨htexts, hkeys⟩ (s | k | n) hl
    · exact htexts s hl
    · exact hkeys k hl
    · rfl

theorem isRecord_toJson (m : Manifest) : Yaml.IsRecord m.toJson := by
  cases m <;> exact ⟨_, _, rfl⟩

theorem fit_toJson {m : Manifest} (h : m.Valid) : m.toJson.Fit := by
  cases m with
  | configMap c => exact (ConfigMap.stands h.sound).fit
  | pod p => exact (Pod.stands h.sound).fit

/-- A sound descriptor is loaded from the text that is written for it if its texts come
back. -/
theorem Sound.load_render (h : d.Sound) (htexts : d.TextsReturn) :
    load (d.render .yaml) = .ok d := by
  have hreturns : ∀ m ∈ d.manifests, ∀ l ∈ m.toJson.leaves, l.Returns := by
    intro m hm l hl
    cases l with
    | text s => exact (htexts m hm).1 s hl
    | key k => exact (htexts m hm).2 k hl
    | number x =>
      exact Yaml.numberReturns_of_readable ((fit_toJson (h.valid m hm)).numbers x hl)
  have hread : Yaml.read (d.render .yaml) =
      .ok ((d.manifests.map Manifest.toJson).map Json.sortKeys) := by
    refine Yaml.read_write ?_ ?_ ?_ ?_ <;> simp only [List.forall_mem_map]
    · exact fun m _ => isRecord_toJson m
    · exact fun m hm => (fit_toJson (h.valid m hm)).keys
    · exact fun m hm l hl => (hreturns m hm l hl).lays
    · exact hreturns
  rw [load, hread, List.map_map]
  exact h.ofDocuments_manifests

end Descriptor

end WorkspaceTrust
