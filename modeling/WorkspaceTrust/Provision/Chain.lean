import WorkspaceTrust.Provision.Basic
import WorkspaceTrust.Text.Quoted

/-!
# Chains of provisioners

A chain runs its items in order and stops at the first that fails. An
item is a provisioner or again a chain. What the items before the failing
one have done to the descriptor stays done.
-/

namespace WorkspaceTrust

inductive ChainItem (α : Type) where
  | single (provisioner : α)
  | nested (items : List (ChainItem α))

/-- Provisioners that run one after the other. -/
structure Chain (α : Type) where
  items : List (ChainItem α)

namespace Chain

/-- The name of every chain. -/
def chainName : String := "chain"

end Chain

namespace ChainItem

instance {α : Type} : Inhabited (ChainItem α) := ⟨nested []⟩

variable {α : Type} [Provisioner α]

def name : ChainItem α → String
  | single p => Provisioner.name p
  | nested _ => Chain.chainName

mutual

def run (fs : FileSystem) (identity : RuntimeIdentity) :
    ChainItem α → Descriptor → Outcome (ChainItem α)
  | single p, d =>
      let o := Provisioner.provision fs identity p d
      ⟨o.result, single o.provisioner, o.descriptor⟩
  | nested items, d =>
      let o := runAll fs identity items d
      ⟨o.result, nested o.provisioner, o.descriptor⟩

def runAll (fs : FileSystem) (identity : RuntimeIdentity) :
    List (ChainItem α) → Descriptor → Outcome (List (ChainItem α))
  | [], d => ⟨.ok (), [], d⟩
  | item :: items, d =>
      let first := run fs identity item d
      match first.result with
      | .error e => ⟨.error e, first.provisioner :: items, first.descriptor⟩
      | .ok () =>
          let others := runAll fs identity items first.descriptor
          ⟨others.result, first.provisioner :: others.provisioner, others.descriptor⟩

end

end ChainItem

namespace Chain

variable {α : Type} [Provisioner α]

def size (c : Chain α) : Nat := c.items.length

def isEmpty (c : Chain α) : Bool := c.items.isEmpty

def names (c : Chain α) : List String := c.items.map ChainItem.name

instance : Provisioner (Chain α) where
  name _ := chainName
  provision fs identity c d :=
    let o := ChainItem.runAll fs identity c.items d
    ⟨o.result, ⟨o.provisioner⟩, o.descriptor⟩

/-- What a chain looks like in a log. -/
def describe (c : Chain α) : String :=
  "ProvisionerChain \x7b provisioners: " ++ Text.quotedList c.names ++ " \x7d"

end Chain

end WorkspaceTrust
