import GossipRing.Wire.Scalar

/-!
# Whether a node probes

A node that gossips probes one member after the other; one that does not still answers requests.
-/

namespace GossipRing

/-- Whether a node probes other members by itself. -/
inductive GossipStatus where
  | running
  | stopped
  deriving DecidableEq, Inhabited, Repr

namespace GossipStatus

def name : GossipStatus → String
  | running => "running"
  | stopped => "stopped"

def toJson (s : GossipStatus) : Json := .str s.name

def ofJson? (j : Json) : Option GossipStatus :=
  (Wire.caseName? j).bind fun name => [running, stopped].find? fun s => s.name = name

end GossipStatus

end GossipRing
