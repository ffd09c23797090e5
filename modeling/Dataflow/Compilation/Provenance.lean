import Dataflow.Description.OfNetwork

/-! Where the result of a compilation comes from. -/

namespace Dataflow

/-- What identifies a compilation: hashes of its source and of the network it ended with. -/
structure Provenance where
  sourceHash : String
  fingerprint : String
deriving DecidableEq

namespace Provenance

def version : String := "0.4.5"

/-- The provenance of a network that was made from a text. -/
def ofNetwork (source : String) (net : Network) : Except Fault Provenance := do
  return { sourceHash := Sha256.hexDigest source, fingerprint := ← net.fingerprint }

def text (provenance : Provenance) : String :=
  let members : Json := .object [
    (some "source_hash", .ofString provenance.sourceHash),
    (some "network_fingerprint", .ofString provenance.fingerprint),
    (some "compiler_version", .ofString version)]
  members.pretty ++ "\n"

end Provenance

end Dataflow
