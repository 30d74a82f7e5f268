import WorkspaceTrust.FileSystem.Path
import WorkspaceTrust.Manifest.Shape
import WorkspaceTrust.Provision.VcsCertificates

/-!
# Configuring certificate provisioning

The configuration is the path of the trust store. As a JSON value it is a
record with the field `certsPath`, or the list of that field alone.
-/

namespace WorkspaceTrust

structure VcsCertificateConfig where
  certsPath : Option Path
deriving DecidableEq, Repr

namespace VcsCertificateConfig

/-- The name of the configuration in reports. -/
def kindName : String := "VcsCertificateConfig"

instance : Inhabited VcsCertificateConfig := ⟨⟨none⟩⟩

/-- The path of the trust store; an empty path is none. -/
def storePath? (c : VcsCertificateConfig) : Option Path := c.certsPath.filter fun p => !p.isEmpty

/-- The provisioner that is configured. -/
def provisioner (c : VcsCertificateConfig) : VcsCertificateProvisioner := .ofRoot c.storePath?

def readPath : Shape.Reader (Option Path) := fun v =>
  (Shape.nullable Shape.path v).map (Option.map Path.ofString)

def ofJson : Shape.Reader VcsCertificateConfig
  | .arr [] => .ok default
  | .arr [v] => do .ok ⟨← readPath v⟩
  | .arr (v :: vs) => do
      let _ ← readPath v
      .error (.tooManyItems (vs.length + 1))
  | v => do
      let fields ← Shape.record kindName v
      let path ← Shape.optional fields "certsPath" readPath
      .ok ⟨path.join⟩

end VcsCertificateConfig

end WorkspaceTrust
