import WorkspaceTrust.Descriptor.Basic
import WorkspaceTrust.FileSystem.Basic
import WorkspaceTrust.ResourceName

/-!
# Provisioners

A provisioner changes a descriptor for one concern of a workspace. It may
read files and may have a state of its own. When it fails, the descriptor
it leaves need not be the one it was given.
-/

namespace WorkspaceTrust

/-- Why a descriptor cannot be provisioned. -/
inductive ProvisionError where
  | invalidName (name : String) (fault : ResourceName.Fault)
  /-- A container mounts another volume where the certificates would go. -/
  | mountConflict (pod container volume mountPath : String)
  | failed (provisioner message : String)
deriving DecidableEq, Repr

def ProvisionError.message : ProvisionError → String
  | .invalidName name fault => "invalid resource name '" ++ name ++ "': " ++ fault.message
  | .mountConflict pod container volume mountPath =>
      "container '" ++ container ++ "' in pod '" ++ pod ++ "' already mounts volume '"
        ++ volume ++ "' at '" ++ mountPath ++ "'"
  | .failed provisioner message => "provisioner '" ++ provisioner ++ "' failed: " ++ message

/-- What a run of a provisioner leaves. -/
structure Outcome (α : Type) where
  result : Except ProvisionError Unit
  provisioner : α
  descriptor : Descriptor

class Provisioner (α : Type) where
  name : α → String
  provision : FileSystem → RuntimeIdentity → α → Descriptor → Outcome α

end WorkspaceTrust
