import WorkspaceTrust.CommandLine.Invocation
import WorkspaceTrust.Descriptor.Load
import WorkspaceTrust.Provision.Chain
import WorkspaceTrust.Provision.Config

/-!
# Running commands

`provision` loads a descriptor, runs every provisioner over it and
returns the text of the result; `git-config` returns the git settings for
the certificates of a trust store. A command that fails returns no text.
-/

namespace WorkspaceTrust

/-- Why a descriptor cannot be had from where it should be. -/
inductive DescriptorFault where
  | unreadable (path : Path) (fault : FileSystem.Fault)
  | rejected (cause : LoadError)
deriving DecidableEq, Repr

def DescriptorFault.report : DescriptorFault → Report
  | .unreadable path fault => .io path.display fault.message
  | .rejected cause => cause.report

/-- Why a command fails. -/
inductive CommandError where
  /-- Standard input cannot be read. -/
  | input (fault : FileSystem.Fault)
  | descriptor (path : Path) (fault : DescriptorFault)
  | provisioning (cause : ProvisionError)
  | logging (fault : Logging.Fault)
deriving DecidableEq, Repr

def CommandError.message : CommandError → String
  | .input fault => "io error: " ++ fault.message
  | .descriptor path fault => "invalid descriptor " ++ path.display ++ ": " ++ fault.report.message
  | .provisioning cause => "provisioning failed: " ++ cause.message
  | .logging fault => fault.message

/-- What a command reads. -/
structure Surroundings where
  files : FileSystem
  standardInput : List UInt8

namespace Command

/-- The path that stands for standard input. -/
def standardInputPath : Path := .ofString "-"

/-- Whether a path stands for standard input. -/
def isStandardInput (p : Path) : Bool :=
  p.components = standardInputPath.components ∧ !p.isAbsolute

def readDescriptor (w : Surroundings) (p : Path) : Except CommandError String :=
  if isStandardInput p then
    (FileSystem.decodeText w.standardInput).mapError .input
  else (w.files.readText p).mapError fun fault => .descriptor p (.unreadable p fault)

/-- All provisioners, in the order in which they run. -/
def provisioners (certsPath : Option Path) : Chain VcsCertificateProvisioner :=
  ⟨[.single (VcsCertificateConfig.provisioner ⟨certsPath⟩)]⟩

/-- The descriptor after a chain has run on it. -/
def provisioned (files : FileSystem) (chain : Chain VcsCertificateProvisioner)
    (identity : RuntimeIdentity) (d : Descriptor) : Except CommandError Descriptor :=
  let o := Provisioner.provision files identity chain d
  match o.result with
  | .ok () => .ok o.descriptor
  | .error e => .error (.provisioning e)

def runProvision (w : Surroundings) (a : ProvisionArguments) : Except CommandError String := do
  let text ← readDescriptor w a.descriptor
  let d ← (Descriptor.load text).mapError fun e => .descriptor a.descriptor (.rejected e)
  let d ← provisioned w.files (provisioners a.certsPath) ⟨a.workspaceId, a.space⟩ d
  .ok (d.render a.output)

def runGitConfig (w : Surroundings) (certsPath : Option Path) : String :=
  let p := VcsCertificateConfig.provisioner ⟨certsPath⟩
  if p.isConfigured then (p.hostConfigs w.files).1 else ""

/-- The text that a command prints. -/
def run (w : Surroundings) : Command → Except CommandError String
  | .provision a => runProvision w a
  | .gitConfig certsPath => .ok (runGitConfig w certsPath)

end Command

/-- What the program leaves of a command: the text on its output and its exit code. -/
structure Printed where
  output : String
  exitCode : Nat
deriving DecidableEq, Repr

/-- A command that fails prints nothing on the output. -/
def Command.printed : Except CommandError String → Printed
  | .ok text => ⟨text, 0⟩
  | .error _ => ⟨"", 1⟩

end WorkspaceTrust
