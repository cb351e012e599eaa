import GossipRing.Duration
import GossipRing.Text.Duration
import GossipRing.Text.Quoted

/-!
# Causes of failure

* **`TransportError`** — why a request to a peer brought no usable answer.
* **`NodeError`** — why a node refused an operation or a request.

The texts are part of what a node sends: the text of a refusal travels inside
`TransportError.remote`.
-/

namespace GossipRing

/-- Why a request brought no usable answer. -/
inductive TransportError where
  | unreachable (address : String)
  | dropped (address : String)
  | timeout (address : String) (after : Duration)
  /-- The peer answered, but with an error. -/
  | remote (address text : String)
  deriving DecidableEq, Repr

namespace TransportError

def message : TransportError → String
  | unreachable address => "no route to " ++ address
  | dropped address => "request to " ++ address ++ " was dropped"
  | timeout address after =>
    "request to " ++ address ++ " timed out after " ++ Text.duration after.nanos
  | remote address text => address ++ " answered with an error: " ++ text

end TransportError

/-- Why a node refused something. -/
inductive NodeError where
  | joinDurationExceeded (limit : Duration)
  | joinAborted
  | invalidJoinApp (expected actual : String)
  | invalidJoinSource (source : String)
  | redundantLeave
  | redundantJoin
  | notReady
  | missingLocalMember
  | unknownConfigKey (key : String)
  | invalidConfig (reason : String)
  | alreadyBootstrapped
  /-- A JSON value that is not of the form that was asked for. -/
  | badBody
  deriving DecidableEq, Repr

namespace NodeError

def message : NodeError → String
  | joinDurationExceeded limit => "join did not complete within " ++ Text.duration limit.nanos
  | joinAborted => "join was aborted"
  | invalidJoinApp expected actual =>
    "join request for app " ++ Text.quoted actual ++ ", expected " ++ Text.quoted expected
  | invalidJoinSource source => "join request from " ++ source ++ ", which is this node"
  | redundantLeave => "local member has already left"
  | redundantJoin => "local member has not left"
  | notReady => "the node has not finished bootstrapping"
  | missingLocalMember => "local member is missing from the membership table"
  | unknownConfigKey key => "unknown config key " ++ Text.quoted key
  | invalidConfig reason => "invalid config: " ++ reason
  | alreadyBootstrapped => "the node is already bootstrapped"
  | badBody => "malformed body"

end NodeError

end GossipRing
