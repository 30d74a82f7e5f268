import WorkspaceTrust.Proofs.Provision.Conflict

/-!
# Histories of a descriptor

A descriptor is changed in three ways: objects of the two kinds are added
to it, and provisioners run on it, each with a state of its own, for its
own workspace and on the files of its time. `reached` lists all that a
descriptor has been in the course of such steps.

A run leaves the descriptor alone or mounts certificates, and then its
check has succeeded before (`provision_cases`); so what adding objects
and a checked `apply` keep is kept by every step, and then by every
history (`forall_reached`).
-/

namespace WorkspaceTrust

/-- A change of a descriptor. -/
inductive Step where
  | provision (fs : FileSystem) (identity : RuntimeIdentity) (p : VcsCertificateProvisioner)
  | addPod (p : Pod)
  | addConfigMap (c : ConfigMap)

namespace Descriptor

def step : Step → Descriptor → Descriptor
  | .provision fs identity p, d => (p.provision fs identity d).descriptor
  | .addPod p, d => d.addPod p
  | .addConfigMap c, d => d.addConfigMap c

/-- The descriptor after some steps. -/
def after : List Step → Descriptor → Descriptor
  | [], d => d
  | s :: steps, d => (d.step s).after steps

/-- Every descriptor on the way, from the first to the last. -/
def reached : List Step → Descriptor → List Descriptor
  | [], d => [d]
  | s :: steps, d => d :: (d.step s).reached steps

theorem after_mem_reached (steps : List Step) : ∀ d : Descriptor, d.after steps ∈ d.reached steps := by
  induction steps with
  | nil => exact fun d => List.mem_singleton.2 rfl
  | cons s steps ih => exact fun d => List.mem_cons_of_mem _ (ih _)

/-- What holds at first and is kept by every step holds all the way. -/
theorem forall_reached {P : Descriptor → Prop} {allowed : Step → Prop}
    (hstep : ∀ s d, allowed s → P d → P (d.step s)) {steps : List Step} :
    (∀ s ∈ steps, allowed s) → ∀ {d : Descriptor}, P d → ∀ d' ∈ d.reached steps, P d' := by
  induction steps with
  | nil =>
    intro _ d hd d' hd'
    obtain rfl := List.mem_singleton.1 hd'
    exact hd
  | cons s steps ih =>
    intro hallowed d hd d' hd'
    rcases List.mem_cons.1 hd' with rfl | hd'
    · exact hd
    · exact ih (fun t ht => hallowed t (List.mem_cons_of_mem _ ht))
        (hstep s d (hallowed s (List.mem_cons_self ..)) hd) d' hd'

end Descriptor

end WorkspaceTrust
