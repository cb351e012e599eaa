/-!
# Endpoints

The three kinds of request a node answers, each under a path of its own.
-/

namespace GossipRing

/-- A kind of request. -/
inductive Endpoint where
  | join
  | ping
  | pingReq
  deriving DecidableEq, Inhabited, Repr

namespace Endpoint

def all : List Endpoint := [join, ping, pingReq]

def path : Endpoint → String
  | join => "/protocol/join"
  | ping => "/protocol/ping"
  | pingReq => "/protocol/ping-req"

/-- The endpoint under a path. -/
def ofPath? (path : String) : Option Endpoint := all.find? fun e => e.path = path

/-- Every endpoint is found under its path. -/
theorem ofPath?_path (e : Endpoint) : ofPath? e.path = some e := by
  cases e <;> decide

end Endpoint

end GossipRing
