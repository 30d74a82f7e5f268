import WorkspaceTrust.Proofs.Descriptor.Acceptance
import WorkspaceTrust.Proofs.Provision.Chain

/-!
# Every object stands under its own name

The maps of a descriptor can hold an object under any key. That the key
is always the name of the object (`Keyed`) is due to the operations:
objects are added under their names, provisioning gives a pod back with
the name that it had, and what each provisioner of a chain keeps the
chain keeps, wherever it stops (`Chain.provision_keeps`). So it holds of
all descriptors that are `Made` by such operations.

The manifests then tell the whole descriptor. They are in the order of
their names, each object is listed once, and put together in any order
they are the descriptor again (`Descriptor.made_of_manifests`).
-/

namespace WorkspaceTrust

/-! ## What a chain keeps -/

/-- What every provisioner keeps, a list of them keeps, also when one of them fails. -/
theorem ChainItem.runEach_keeps {α : Type} [Provisioner α] {fs : FileSystem}
    {identity : RuntimeIdentity} {P : Descriptor → Prop}
    (hstep : ∀ (p : α) d, P d → P (Provisioner.provision fs identity p d).descriptor)
    (ps : List α) : ∀ {d : Descriptor}, P d → P (runEach fs identity ps d).descriptor := by
  induction ps with
  | nil => exact id
  | cons p ps ih =>
    intro d hd
    have hfirst := hstep p d hd
    rw [runEach]
    cases (Provisioner.provision fs identity p d).result with
    | error e => exact hfirst
    | ok u => exact ih hfirst

theorem Chain.provision_keeps {α : Type} [Provisioner α] {fs : FileSystem}
    {identity : RuntimeIdentity} {P : Descriptor → Prop}
    (hstep : ∀ (p : α) d, P d → P (Provisioner.provision fs identity p d).descriptor)
    (c : Chain α) {d : Descriptor} (hd : P d) :
    P (Provisioner.provision fs identity c d).descriptor := by
  have hflat := congrArg Outcome.descriptor (Chain.provision_leaves fs identity c d)
  exact hflat ▸ ChainItem.runEach_keeps hstep c.leaves hd

namespace Descriptor

variable {d : Descriptor}

/-! ## What the operations keep -/

theorem keyed_empty : Keyed .empty :=
  ⟨fun _ h => absurd h List.not_mem_nil, fun _ h => absurd h List.not_mem_nil⟩

theorem Keyed.addPod (h : d.Keyed) (p : Pod) : (d.addPod p).Keyed := by
  refine ⟨h.configMaps, fun e he => ?_⟩
  rcases SortedMap.mem_insertEntry he with rfl | he
  · rfl
  · exact h.pods e he

theorem Keyed.addConfigMap (h : d.Keyed) (c : ConfigMap) : (d.addConfigMap c).Keyed := by
  refine ⟨fun e he => ?_, h.pods⟩
  rcases SortedMap.mem_insertEntry he with rfl | he
  · rfl
  · exact h.configMaps e he

theorem Keyed.mapPods (h : d.Keyed) {f : Pod → Pod}
    (hf : ∀ p, (f p).metadata.name = p.metadata.name) : (d.mapPods f).Keyed := by
  refine ⟨h.configMaps, fun e he => ?_⟩
  obtain ⟨e', he', rfl⟩ := List.mem_map.1 he
  rw [hf]
  exact h.pods e' he'

theorem Keyed.provision (h : d.Keyed) (fs : FileSystem) (identity : RuntimeIdentity)
    (p : VcsCertificateProvisioner) : (p.provision fs identity d).descriptor.Keyed := by
  rcases VcsCertificateProvisioner.provision_cases fs identity p d with hsame | ⟨-, -, -, happly⟩
  · rw [hsame]
    exact h
  · rw [happly]
    exact (h.addConfigMap _).mapPods fun _ => rfl

/-- The descriptors that can be made: they start empty or are loaded, objects are added to
them, and provisioners and chains run on them, whether these succeed or fail. -/
inductive Made : Descriptor → Prop
  | empty : Made .empty
  | loaded {text : String} {d : Descriptor} (h : load text = .ok d) : Made d
  | addPod {d : Descriptor} (h : Made d) (p : Pod) : Made (d.addPod p)
  | addConfigMap {d : Descriptor} (h : Made d) (c : ConfigMap) : Made (d.addConfigMap c)
  | provision {d : Descriptor} (h : Made d) (fs : FileSystem) (identity : RuntimeIdentity)
      (p : VcsCertificateProvisioner) : Made (p.provision fs identity d).descriptor
  | chain {d : Descriptor} (h : Made d) (fs : FileSystem) (identity : RuntimeIdentity)
      (c : Chain VcsCertificateProvisioner) :
      Made (Provisioner.provision fs identity c d).descriptor

theorem Made.keyed (h : d.Made) : d.Keyed := by
  induction h with
  | empty => exact keyed_empty
  | loaded h => exact (sound_of_load h).keyed
  | addPod _ p ih => exact ih.addPod p
  | addConfigMap _ c ih => exact ih.addConfigMap c
  | provision _ fs identity p ih => exact ih.provision fs identity p
  | chain _ fs identity c ih =>
    exact Chain.provision_keeps (P := Keyed) (fun p _ hd => hd.provision fs identity p) c ih

/-! ## The manifests -/

theorem Keyed.foldl_add_perm (h : d.Keyed) {ms : List Manifest} (hperm : ms.Perm d.manifests) :
    ms.foldl (fun d m => d.add m) .empty = d := by
  rw [Descriptor.foldl_add_perm hperm h.nodup_tags, h.foldl_manifests]

/-- In every descriptor that can be made all objects stand under their own names. Its manifests
are the config maps and then the pods, both in the order of the bytes of their names, and each
object is there just once. In whatever order they are added, they make the descriptor again. -/
theorem made_of_manifests (h : d.Made) :
    (∀ name c, d.configMaps.get? name = some c → c.metadata.name = name) ∧
    (∀ name p, d.pods.get? name = some p → p.metadata.name = name) ∧
    (∃ (maps : List ConfigMap) (pods : List Pod),
      d.manifests = maps.map .configMap ++ pods.map .pod ∧
      (maps.Pairwise fun c c' =>
        KeyOrder.before (utf8 c.metadata.name) (utf8 c'.metadata.name) = true) ∧
      (pods.Pairwise fun p p' =>
        KeyOrder.before (utf8 p.metadata.name) (utf8 p'.metadata.name) = true) ∧
      (∀ c, c ∈ maps ↔ d.configMaps.get? c.metadata.name = some c) ∧
      ∀ p, p ∈ pods ↔ d.pods.get? p.metadata.name = some p) ∧
    d.manifests.Nodup ∧
    ∀ ms : List Manifest, ms.Perm d.manifests → ms.foldl (fun d m => d.add m) .empty = d := by
  have hkeyed := h.keyed
  refine ⟨fun name c hc => ?_, fun name p hp => ?_, ⟨d.configMaps.values, d.pods.values, rfl,
    values_increasing hkeyed.configMaps, values_increasing hkeyed.pods,
    fun c => @mem_values_iff _ d.configMaps (fun c => c.metadata.name) c hkeyed.configMaps,
    fun p => @mem_values_iff _ d.pods (fun p => p.metadata.name) p hkeyed.pods⟩,
    hkeyed.nodup_tags.of_map, fun ms => hkeyed.foldl_add_perm⟩
  · exact (hkeyed.configMaps _ (SortedMap.get?_eq_some_iff.1 hc)).symm
  · exact (hkeyed.pods _ (SortedMap.get?_eq_some_iff.1 hp)).symm

/-- Objects are added, and chains run that succeed, fail and have nothing to mount. -/
theorem made_of_manifests_after_chains :
    let first := (empty.addPod (.new "zoo" default)).addConfigMap (.new (.named "settings"))
    let chain : Chain VcsCertificateProvisioner :=
      ⟨[.single (.ofRoot none), .nested [.single .ofCerts]]⟩
    let run (workspace : String) (d : Descriptor) : Descriptor :=
      (Provisioner.provision VcsCertificateProvisioner.oneCertificate ⟨workspace, none⟩ chain
        d).descriptor
    let last := run "Bad id" ((run "ws" first).addPod (.new "app" default))
    last.Made ∧
      last.manifests.map Manifest.name = ["settings", certificateMapName "ws", "app", "zoo"] ∧
      last.manifests.reverse.foldl (fun d m => d.add m) .empty = last := by
  intro first chain run last
  have hmade : last.Made :=
    .chain (.addPod (.chain (.addConfigMap (.addPod .empty _) _) _ _ _) _) _ _ _
  obtain ⟨-, -, -, -, hagain⟩ := made_of_manifests hmade
  exact ⟨hmade, by decide +kernel, hagain _ last.manifests.reverse_perm⟩

end Descriptor

end WorkspaceTrust
