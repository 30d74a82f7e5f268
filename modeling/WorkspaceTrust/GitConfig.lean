/-!
# Git settings for trusted hosts

For each host git is told which certificate to trust: a header line that
names the host and, behind a tab, a line with the path of the
certificate, which is called like the host.
-/

namespace WorkspaceTrust.GitConfig

/-- The header of the settings for requests to a host. -/
def header (host : String) : String := "[http \"https://" ++ host ++ "*\"]"

/-- The setting for a host whose certificate lies in a directory. -/
def setting (host directory : String) : String := "\tsslCAInfo = " ++ directory ++ host

def stanza (host directory : String) : String :=
  header host ++ "\n" ++ setting host directory ++ "\n"

/-- The stanzas of some hosts, in their order. -/
def render (hosts : List String) (directory : String) : String :=
  String.join (hosts.map fun host => stanza host directory)

end WorkspaceTrust.GitConfig
