import Mathlib.Data.List.Nodup
import WorkspaceTrust.Proofs.Descriptor.Reload

/-!
# The order of documents does not matter

Objects of different kinds or names do not get into each other's way
(`add_comm`). The manifests of a sound descriptor all differ in kind or
name, so that they make the same descriptor in every order
(`foldl_add_perm`), and none of them is taken for a duplicate. Hence
whatever can come about is described by its manifests in every order
(`Reachable.ofDocuments_perm`).
-/

namespace WorkspaceTrust

/-- Values under different keys can be stored in either order. -/
theorem SortedMap.insert_comm {κ α : Type} [KeyOrder κ] [DecidableEq κ] (m : SortedMap κ α)
    {k j : κ} (h : k ≠ j) (a b : α) : (m.insert k a).insert j b = (m.insert j b).insert k a := by
  refine ext fun i => ?_
  simp only [get?_insert]
  by_cases hk : k = i
  · rw [if_pos hk, if_pos hk, if_neg fun hj => h (hk.trans hj.symm)]
  · rw [if_neg hk, if_neg hk]

namespace Descriptor

variable {d : Descriptor}

theorem add_comm {m n : Manifest} (h : m.tag ≠ n.tag) (d : Descriptor) :
    (d.add m).add n = (d.add n).add m := by
  have hname : m.kindName = n.kindName → m.name ≠ n.name :=
    fun hkind heq => h (Prod.ext hkind heq)
  cases m with
  | configMap c =>
    cases n with
    | configMap c' =>
      exact congrArg (Descriptor.mk d.pods) (d.configMaps.insert_comm (hname rfl) c c')
    | pod p => rfl
  | pod p =>
    cases n with
    | configMap c => rfl
    | pod p' =>
      exact congrArg (Descriptor.mk · d.configMaps) (d.pods.insert_comm (hname rfl) p p')

theorem foldl_add_perm {ms ns : List Manifest} (h : ms.Perm ns)
    (hnodup : (ns.map Manifest.tag).Nodup) (d : Descriptor) :
    ms.foldl (fun d m => d.add m) d = ns.foldl (fun d m => d.add m) d := by
  refine h.foldl_eq' (fun m hm n hn e => ?_) d
  by_cases htag : m.tag = n.tag
  · rw [List.inj_on_of_nodup_map hnodup (h.mem_iff.1 hm) (h.mem_iff.1 hn) htag]
  · exact add_comm htag e

/-- Whatever has been loaded and provisioned is described by its manifests, in every
order. -/
theorem Reachable.ofDocuments_perm (h : d.Reachable) {ms : List Manifest}
    (hperm : ms.Perm d.manifests) :
    ofDocuments (ms.map fun m => m.toJson.sortKeys) = .ok d := by
  have hsound := h.sound
  have hvalid : ∀ m ∈ ms, m.Valid := fun m hm => hsound.valid m (hperm.mem_iff.1 hm)
  have hnodup : (ms.map Manifest.tag).Nodup := (hperm.map _).nodup_iff.2 hsound.nodup_tags
  have hnew : ∀ m ∈ ms, hasNameOf m .empty = false := fun m _ => by cases m <;> rfl
  rw [ofDocuments, addDocuments_toJson hvalid hnodup hnew, foldl_add_perm hperm hsound.nodup_tags,
    hsound.foldl_manifests]

/-- A pod without containers. -/
def onePod : Descriptor := empty.addPod (Pod.new "dev" default)

theorem sound_onePod : onePod.Sound := by
  have hspec : (default : PodSpec).Sound :=
    ⟨fun _ h => absurd h List.not_mem_nil, fun _ h => absurd h List.not_mem_nil,
      fun _ h => absurd h List.not_mem_nil, Extra.sound_none⟩
  exact sound_empty.add (m := .pod _) ⟨rfl, by decide, Extra.sound_none, hspec, Extra.sound_none⟩

/-- The pod is loaded from its text and provisioned; then the config map stands behind it. -/
theorem ofDocuments_pod_before_configMap :
    let first := (VcsCertificateProvisioner.ofCerts.provision
      VcsCertificateProvisioner.oneCertificate ⟨"ws", none⟩ onePod).descriptor
    first.manifests.map Manifest.kindName = ["ConfigMap", "Pod"] ∧
      ofDocuments (first.manifests.reverse.map fun m => m.toJson.sortKeys) = .ok first := by
  intro first
  have hload : load (onePod.render .yaml) = .ok onePod :=
    sound_onePod.load_render (by decide +kernel)
  have hreachable : first.Reachable := (Reachable.loaded hload).provisioned _ _ _
  exact ⟨by decide +kernel, hreachable.ofDocuments_perm first.manifests.reverse_perm⟩

end Descriptor

end WorkspaceTrust
