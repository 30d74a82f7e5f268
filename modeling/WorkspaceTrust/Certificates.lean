import WorkspaceTrust.TrustStore

/-!
# Certificates

The certificates of a trust store are the contents of its files by their
names. What is not text is left out, and of two files with one name the
later one counts.

A `CertificateCache` reads the certificates until it finds any, and keeps
what it has found from then on.
-/

namespace WorkspaceTrust

/-- Certificates by the name of the file that holds them. -/
abbrev Certificates := SortedMap String String

namespace FileSystem

/-- The name and the content of a certificate file, if both are text. -/
def readCertificate (fs : FileSystem) (p : Path) : Option (String × String) := do
  let name ← p.fileName?.bind textOfBytes
  let content ← (fs.readText p).toOption
  some (name, content)

def readCertificates (fs : FileSystem) (paths : List Path) : Certificates :=
  SortedMap.ofList (paths.filterMap fs.readCertificate)

end FileSystem

structure CertificateCache where
  store : TrustStore
  found : Option Certificates
  /-- What is kept is never empty. -/
  found_nonempty : ∀ certificates, found = some certificates → certificates.isEmpty = false
deriving DecidableEq

namespace CertificateCache

/-- A cache that has found nothing so far. -/
def ofStore (store : TrustStore) : CertificateCache := ⟨store, none, nofun⟩

def isConfigured (c : CertificateCache) : Bool := c.store.isConfigured

/-- The certificates, and the cache afterwards. -/
def load (fs : FileSystem) (c : CertificateCache) : Certificates × CertificateCache :=
  match c.found with
  | some certificates => (certificates, c)
  | none =>
      let certificates := fs.readCertificates (c.store.files fs)
      if h : certificates.isEmpty then (certificates, c)
      else (certificates, ⟨c.store, some certificates, by
        intro kept hk
        cases hk
        simpa using h⟩)

end CertificateCache

end WorkspaceTrust
