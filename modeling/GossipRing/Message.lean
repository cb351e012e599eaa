import GossipRing.Snapshot

/-!
# Requests and answers

What nodes send each other: a join asks for the whole table, a ping carries claims both ways, and
a ping-req asks a helper to ping somebody else. Claims that come in a message are never malformed
once they have been read, see `Wire`.
-/

namespace GossipRing

/-- Ask to be taken in, and to be sent the whole table. -/
structure JoinRequest where
  app : String
  source : String
  incarnation : UInt64
  deriving DecidableEq, Inhabited, Repr

/-- The whole table of the node that was joined. -/
structure JoinResponse where
  app : String
  coordinator : String
  membership : List Change
  checksum : Option UInt32
  deriving DecidableEq, Inhabited, Repr

namespace JoinResponse

def snapshot (r : JoinResponse) : Snapshot := ⟨r.checksum, r.membership⟩

end JoinResponse

/-- Are you there? -/
structure PingRequest where
  checksum : Option UInt32
  changes : List Change
  source : String
  sourceIncarnation : UInt64
  deriving DecidableEq, Inhabited, Repr

structure PingResponse where
  changes : List Change
  status : Bool
  deriving DecidableEq, Inhabited, Repr

/-- Is the target there, for all you can see? -/
structure PingReqRequest where
  checksum : Option UInt32
  changes : List Change
  source : String
  sourceIncarnation : UInt64
  target : String
  deriving DecidableEq, Inhabited, Repr

/-- Whether the helper reached the target. -/
structure PingReqResponse where
  changes : List Change
  status : Bool
  target : String
  deriving DecidableEq, Inhabited, Repr

end GossipRing
