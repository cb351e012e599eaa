import GossipRing.Hash.Wyhash
import GossipRing.RedBlack.Cursor

/-!
# The hash ring

Every server owns a number of positions on a ring of 32-bit hashes, one for each of its name
followed by a count. A key belongs to the owner of the first position strictly above the key's
hash, and above the largest position the ring starts again at the smallest.

* **`Ring.add`**, **`Ring.remove`** — one server.
* **`Ring.addRemove`** — a batch with one checksum and one report of what changed.
* **`Ring.lookup`** — the owner of a key. **`Ring.lookupMany`** — the first few different owners,
  walking once around the ring.

A position that is already taken keeps its owner, and a position is given up whoever owns it, so
two servers whose positions meet can take a position from each other; with a hash that keeps them
apart they never do.
-/

namespace GossipRing

/-- What a ring reports to its listeners. -/
inductive RingEvent where
  | added (server : String)
  | removed (server : String)
  | checksumComputed (checksum : UInt32) (old : Option UInt32)
  /-- The servers that one batch added and removed. -/
  | changed (added removed : List String)
  deriving DecidableEq, Repr

/-- A mapping of keys to servers. -/
structure Ring where
  replicaPoints : Nat
  hash : HashFunction
  positions : RedBlack.Tree String
  /-- The declared servers in ascending order. -/
  servers : List String
  /-- `none` until the first server is added or removed. -/
  checksum : Option UInt32
  events : List RingEvent

namespace Ring

open RedBlack

/-- The ring without servers. -/
def empty (replicaPoints : Nat) (hash : HashFunction) : Ring where
  replicaPoints := replicaPoints
  hash := hash
  positions := .leaf
  servers := []
  checksum := none
  events := []

/-- The positions of a server. -/
def points (r : Ring) (server : String) : List UInt32 :=
  (List.range r.replicaPoints).map fun i => r.hash (server ++ toString i)

/-- Put a name into its place among names in ascending order. -/
def insertName (name : String) : List String → List String
  | [] => [name]
  | other :: rest =>
    if name < other then name :: other :: rest
    else if name = other then other :: rest
    else other :: insertName name rest

def hasServer (r : Ring) (server : String) : Bool := r.servers.contains server

/-- Declare a server and take its positions, unless it is declared already. -/
def place (r : Ring) (server : String) : Option Ring :=
  if r.hasServer server then none
  else
    some { r with
      servers := insertName server r.servers
      positions := (r.points server).foldl (fun t p => t.insert p server) r.positions }

/-- Withdraw a server and give up its positions, if it is declared. -/
def withdraw (r : Ring) (server : String) : Option Ring :=
  if r.hasServer server then
    some { r with
      servers := r.servers.filter fun s => s ≠ server
      positions := (r.points server).foldl (fun t p => t.erase p) r.positions }
  else none

def emit (r : Ring) (event : RingEvent) : Ring := { r with events := r.events ++ [event] }

/-- The hash of the servers' names in ascending order, joined. -/
def computeChecksum (r : Ring) : UInt32 := r.hash (String.intercalate ";" r.servers)

/-- Renew the checksum and log the renewal. -/
def renewChecksum (r : Ring) : Ring :=
  let checksum := r.computeChecksum
  { r with
    checksum := some checksum
    events := r.events ++ [.checksumComputed checksum r.checksum] }

/-- Add a server; `false` if it was there. -/
def add (r : Ring) (server : String) : Ring × Bool :=
  match r.place server with
  | some r => (r.renewChecksum.emit (.added server), true)
  | none => (r, false)

/-- Remove a server; `false` if it was not there. -/
def remove (r : Ring) (server : String) : Ring × Bool :=
  match r.withdraw server with
  | some r => (r.renewChecksum.emit (.removed server), true)
  | none => (r, false)

/-- Add servers in order; the result lists those that were not there. -/
def placeAll (r : Ring) : List String → Ring × List String
  | [] => (r, [])
  | server :: rest =>
    match r.place server with
    | some r =>
      let (r, added) := placeAll (r.emit (.added server)) rest
      (r, server :: added)
    | none => placeAll r rest

/-- Remove servers in order; the result lists those that were there. -/
def withdrawAll (r : Ring) : List String → Ring × List String
  | [] => (r, [])
  | server :: rest =>
    match r.withdraw server with
    | some r =>
      let (r, removed) := withdrawAll (r.emit (.removed server)) rest
      (r, server :: removed)
    | none => withdrawAll r rest

/-- Add servers, then remove servers, with one checksum and one report at the end if anything
changed; the result says whether it did. -/
def addRemove (r : Ring) (toAdd toRemove : List String) : Ring × Bool :=
  let (r, added) := r.placeAll toAdd
  let (r, removed) := r.withdrawAll toRemove
  if added.isEmpty && removed.isEmpty then (r, false)
  else (r.renewChecksum.emit (.changed added removed), true)

/-- The owner of a key. -/
def lookup (r : Ring) (key : String) : Option String :=
  match (r.positions.upperBound (r.hash key)).value? with
  | some server => some server
  | none => r.positions.min?.map Prod.snd

/-- The owners of all positions, once around the ring from the owner of `key`. -/
def owners (r : Ring) (key : String) : List String :=
  let position := r.hash key
  ((r.positions.upperBound position).toList ++
    r.positions.start.toList.takeWhile fun entry => entry.1 ≤ position).map Prod.snd

/-- The first `n` different names of a list that are not among those seen. -/
def firstDistinct : Nat → List String → List String → List String
  | 0, _, _ => []
  | _, _, [] => []
  | n + 1, seen, name :: rest =>
    if seen.contains name then firstDistinct (n + 1) seen rest
    else name :: firstDistinct n (name :: seen) rest

/-- Up to `n` different servers in ring order, from the owner of `key`. -/
def lookupMany (r : Ring) (key : String) (n : Nat) : List String :=
  firstDistinct (min n r.servers.length) [] (r.owners key)

end Ring

end GossipRing
