import GossipRing.Endpoint
import GossipRing.Node

/-!
# Who answers requests on a network

Besides nodes there are stubs, peers that answer from a script: every request for an endpoint
takes the next answer written for it, and the last one is repeated. A stub remembers what it was
asked.
-/

namespace GossipRing

/-- One line of a stub's script. -/
inductive StubAnswer where
  | body (value : Json)
  /-- The request is refused. -/
  | refusal
  deriving Inhabited

/-- A peer that answers from a script. -/
structure Stub where
  script : List (Endpoint × List StubAnswer)
  /-- What it was asked, in order. -/
  seen : List (Endpoint × Json)

namespace Stub

/-- The answers that are left for an endpoint. -/
def answersFor (s : Stub) (endpoint : Endpoint) : List StubAnswer :=
  match s.script.find? fun entry => entry.1 = endpoint with
  | some entry => entry.2
  | none => []

/-- The script without the next answer for an endpoint, unless it is the last. -/
def turnPage (endpoint : Endpoint) (script : List (Endpoint × List StubAnswer)) :
    List (Endpoint × List StubAnswer) :=
  script.map fun entry =>
    match entry with
    | (e, answer :: next :: rest) =>
      if e = endpoint then (e, next :: rest) else (e, answer :: next :: rest)
    | other => other

/-- Answer a request. -/
def handle (s : Stub) (endpoint : Endpoint) (body : Json) : Stub × Except NodeError Json :=
  let answer :=
    match s.answersFor endpoint with
    | [] => .error (.invalidConfig "no answer")
    | .refusal :: _ => .error (.invalidConfig "refused")
    | .body value :: _ => .ok value
  ({ script := turnPage endpoint s.script, seen := s.seen ++ [(endpoint, body)] }, answer)

end Stub

/-- Whoever is registered under an address. -/
inductive Peer where
  | node (n : Node)
  | stub (s : Stub)

end GossipRing
