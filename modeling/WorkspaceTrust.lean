import WorkspaceTrust.FileSystem.Change
import WorkspaceTrust.Json.Word
import WorkspaceTrust.Main
import WorkspaceTrust.Proofs.Provision.Mounting
import WorkspaceTrust.Proofs.Provision.Conflict
import WorkspaceTrust.Proofs.Provision.Idempotence
import WorkspaceTrust.Proofs.Yaml.Cursor
import WorkspaceTrust.Proofs.Yaml.Plain
import WorkspaceTrust.Proofs.Decimal.Digits
import WorkspaceTrust.Proofs.Yaml.Quoted
import WorkspaceTrust.Proofs.Yaml.Literal
import WorkspaceTrust.Proofs.Yaml.Level
import WorkspaceTrust.Proofs.Yaml.Step
import WorkspaceTrust.Proofs.Yaml.Scalar
import WorkspaceTrust.Proofs.Yaml.Layout
import WorkspaceTrust.Proofs.Yaml.Empty
import WorkspaceTrust.Proofs.Json.Leaf
import WorkspaceTrust.Proofs.Yaml.Written
import WorkspaceTrust.Proofs.Yaml.Stream
import WorkspaceTrust.Proofs.Yaml.Grammar
import WorkspaceTrust.Proofs.Yaml.Resolve
import WorkspaceTrust.Proofs.Decimal.RoundTrip
import WorkspaceTrust.Proofs.Yaml.Number
import WorkspaceTrust.Proofs.Manifest.Codec
import WorkspaceTrust.Proofs.Yaml.Sound
import WorkspaceTrust.Proofs.Descriptor.Sound
import WorkspaceTrust.Proofs.Descriptor.Reload
import WorkspaceTrust.Proofs.Yaml.Exact
import WorkspaceTrust.Proofs.Provision.Chain
import WorkspaceTrust.Proofs.Descriptor.Order
import WorkspaceTrust.Proofs.Provision.History
import WorkspaceTrust.Proofs.Provision.WellFormed
import WorkspaceTrust.Proofs.FileSystem.Path
import WorkspaceTrust.Proofs.FileSystem.Resolution
import WorkspaceTrust.Proofs.TrustStore.Passage
import WorkspaceTrust.Proofs.TrustStore.Visible
import WorkspaceTrust.Proofs.Provision.HostConfigs
import WorkspaceTrust.Proofs.Descriptor.Acceptance
import WorkspaceTrust.Proofs.Manifest.Kept
import WorkspaceTrust.Proofs.CommandLine.Provision
import WorkspaceTrust.Proofs.Provision.LatePod
import WorkspaceTrust.Proofs.Provision.Owner
import WorkspaceTrust.Proofs.Json.RoundTrip
import WorkspaceTrust.Proofs.Descriptor.JsonList
import WorkspaceTrust.Proofs.TrustStore.Publication
import WorkspaceTrust.Proofs.Provision.MapName
import WorkspaceTrust.Proofs.Yaml.Mapping
import WorkspaceTrust.Proofs.Descriptor.Datum
import WorkspaceTrust.Proofs.Yaml.Unrepresentable
import WorkspaceTrust.Proofs.GitConfig.ReadBack
import WorkspaceTrust.Proofs.Provision.MountPath
import WorkspaceTrust.Proofs.CommandLine.EmptyVariable
import WorkspaceTrust.Proofs.Certificates.Collection
import WorkspaceTrust.Proofs.Provision.Flattening
import WorkspaceTrust.Proofs.Descriptor.Keyed
import WorkspaceTrust.Proofs.TrustStore.Traversal
