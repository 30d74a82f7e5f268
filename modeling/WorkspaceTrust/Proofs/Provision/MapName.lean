import WorkspaceTrust.Proofs.Provision.Mounting
import WorkspaceTrust.Proofs.ResourceName.Subdomain

/-!
# The names of certificate config maps

A workspace can be provisioned if the name of its config map is accepted.
The ending of that name is fixed: it has twenty-five bytes, begins with a
hyphen and ends with a letter. So it is the beginning and the length of
the workspace's id that count (`check_certificateMapName_iff`), and the
end of the id may be a point or a hyphen. Different workspaces have
different config maps (`certificateMapName_injective`).

That an accepted name is a DNS subdomain takes more, since points inside
it are not looked at (`isSubdomain_iff_accepted`).
-/

namespace WorkspaceTrust

open ResourceName VcsCertificateProvisioner

/-! ## Names and workspaces -/

theorem certificateMapName_injective : Function.Injective certificateMapName :=
  fun _ _ h => (String.append_left_inj _).1 h

/-- A name with the fixed ending is spelled like a name exactly if what comes before it is,
but for its last character. -/
theorem spelled_certificateMapName_iff {w : String} :
    Spelled (certificateMapName w).toList ↔
      (∀ c ∈ w.toList, isNameChar c = true) ∧ w.toList.head?.any isAlphanumeric = true := by
  have hending : ∀ c ∈ "-che-git-self-signed-cert".toList, isNameChar c = true :=
    List.all_eq_true.1 (by decide)
  rw [certificateMapName, String.toList_append]
  constructor
  · intro h
    refine ⟨(List.forall_mem_append.1 h.chars).1, ?_⟩
    cases hw : w.toList with
    | nil =>
      rw [hw] at h
      exact absurd h.first (by decide)
    | cons c cs => simpa [hw] using h.first
  · rintro ⟨hchars, hfirst⟩
    obtain ⟨c, cs, hw⟩ : ∃ c cs, w.toList = c :: cs := by
      cases hw : w.toList with
      | nil => simp [hw] at hfirst
      | cons c cs => exact ⟨c, cs, rfl⟩
    refine ⟨List.forall_mem_append.2 ⟨hchars, hending⟩, by simpa [hw] using hfirst, ?_⟩
    rw [List.getLast?_append_of_ne_nil _ (by decide)]
    decide

/-- A run for another workspace leaves the config map of this one as it is. -/
theorem get?_configMaps_of_other {w : String} {identity : RuntimeIdentity}
    (h : identity.workspaceId ≠ w) (fs : FileSystem) (p : VcsCertificateProvisioner)
    (d : Descriptor) :
    (provision fs identity p d).descriptor.configMaps.get? (certificateMapName w) =
      d.configMaps.get? (certificateMapName w) := by
  rcases provision_cases fs identity p d with hsame | ⟨-, -, -, happly⟩
  · rw [hsame]
  · rw [happly, get?_configMaps_apply, if_neg fun heq => h (certificateMapName_injective heq)]

/-- The workspaces that can be provisioned, by their ids; no two of them have one config map,
and no run for one of them touches that of another. -/
theorem check_certificateMapName_iff (w : String) :
    (check (certificateMapName w) = .ok () ↔
      w ≠ "" ∧ w.utf8ByteSize ≤ 228 ∧ (∀ c ∈ w.toList, isNameChar c = true) ∧
        w.toList.head?.any isAlphanumeric = true) ∧
    (∀ w', certificateMapName w' = certificateMapName w → w' = w) ∧
    ∀ fs identity p d, identity.workspaceId ≠ w →
      (provision fs identity p d).descriptor.configMaps.get? (certificateMapName w) =
        d.configMaps.get? (certificateMapName w) := by
  refine ⟨?_, fun w' h => certificateMapName_injective h,
    fun fs identity p d h => get?_configMaps_of_other h fs p d⟩
  have hsize : (certificateMapName w).utf8ByteSize = w.utf8ByteSize + 25 := by
    rw [certificateMapName, String.utf8ByteSize_append]
    rfl
  rw [ResourceName.check_eq_ok_iff, spelled_certificateMapName_iff, hsize, maxLength]
  constructor
  · rintro ⟨⟨hchars, hfirst⟩, hlength⟩
    refine ⟨?_, by omega, hchars, hfirst⟩
    rintro rfl
    cases hfirst
  · rintro ⟨-, hlength, hchars, hfirst⟩
    exact ⟨⟨hchars, hfirst⟩, by omega⟩

theorem check_certificateMapName_team :
    check (certificateMapName "7.team-") = .ok () ∧
    (provision oneCertificate ⟨"team", none⟩ ofCerts .empty).descriptor.configMaps.get?
      (certificateMapName "7.team-") = none := by
  obtain ⟨haccepted, -, hother⟩ := check_certificateMapName_iff "7.team-"
  have hteam : (RuntimeIdentity.mk "team" none).workspaceId ≠ "7.team-" := by decide
  have hchars : ∀ c ∈ "7.team-".toList, isNameChar c = true := List.all_eq_true.1 (by decide)
  exact ⟨haccepted.2 ⟨by decide, by decide, hchars, by decide⟩,
    hother oneCertificate _ ofCerts .empty hteam⟩

/-! ## Names and subdomains -/

/-- A name is a subdomain exactly if it is accepted and its points have letters or digits on
both sides. -/
theorem isSubdomain_iff_accepted (name : String) :
    IsSubdomain name ↔ check name = .ok () ∧ name.toList.IsChain Beside := by
  rw [isSubdomain_iff_dotted, ResourceName.check_eq_ok_iff]
  constructor
  · rintro ⟨⟨hspelled, hpoints⟩, hlength⟩
    exact ⟨⟨hspelled, hlength⟩, hpoints⟩
  · rintro ⟨⟨hspelled, hlength⟩, hpoints⟩
    exact ⟨⟨hspelled, hpoints⟩, hlength⟩

/-- A label without characters is accepted, and a config map of such a name is written. -/
theorem accepts_empty_label :
    let outcome := provision oneCertificate ⟨"a..b", none⟩ ofCerts .empty
    check "a..b" = .ok () ∧ ¬ IsSubdomain "a..b" ∧
      outcome.result = .ok () ∧
      outcome.descriptor.configMaps.contains (certificateMapName "a..b") = true ∧
      ¬ IsSubdomain (certificateMapName "a..b") := by
  have hpoints : ∀ {cs : List Char}, ¬ ('a' :: '.' :: '.' :: cs).IsChain Beside := by
    intro cs h
    have hbeside : Beside '.' '.' := (List.isChain_cons_cons.1 (List.isChain_cons_cons.1 h).2).1
    exact absurd (hbeside.after_point rfl) (by decide)
  refine ⟨by decide, fun h => ?_, by decide +kernel, by decide +kernel, fun h => ?_⟩
  · exact hpoints (isSubdomain_iff_dotted.1 h).1.points
  · exact hpoints (isSubdomain_iff_dotted.1 h).1.points

end WorkspaceTrust
