import GossipRing.Member

/-!
# Snapshots and their reconciliation

A node that joins is sent the whole table of every node it joins. If all of them report one
checksum they agree, and the first is taken as it is. Otherwise the entries are merged by address,
and the highest incarnation wins, the first of equals.

* **`Snapshot`** — a table as one node sent it.
* **`newest`** — the first entry with the highest incarnation for each address. An entry that
  replaces an older one takes its own place, behind those before it.
* **`reconcile`** — the entries to adopt, and whether the stash was merged into them.
-/

namespace GossipRing

/-- A whole table, as a node that was joined sent it. -/
structure Snapshot where
  checksum : Option UInt32
  members : List Change
  deriving DecidableEq, Inhabited, Repr

namespace Snapshot

/-- What comes out of the snapshots gathered while joining. -/
structure Reconciled where
  changes : List Change
  /-- Whether the changes that were held back are among `changes`. -/
  consumedStash : Bool
  deriving DecidableEq, Repr

/-- The claim about this address, if one is kept. -/
def entry? (address : String) (kept : List Change) : Option Change :=
  kept.find? fun c => c.address = address

/-- Keep `c` behind the others unless a claim about its address has as high an incarnation. -/
def keepNewer (kept : List Change) (c : Change) : List Change :=
  match entry? c.address kept with
  | some prior =>
    if c.incarnation > prior.incarnation then
      kept.filter (fun k => k.address ≠ c.address) ++ [c]
    else kept
  | none => kept ++ [c]

/-- The newest claim about each address other than `here`. -/
def newest (here : String) (claims : List Change) : List Change :=
  (claims.filter fun c => c.address ≠ here && !c.isMalformed).foldl keepNewer []

/-- All snapshots carry the checksum of the first one, and it is known. -/
def agree (first : Snapshot) (snapshots : List Snapshot) : Bool :=
  first.checksum.isSome && snapshots.all fun s => s.checksum = first.checksum

/-- The claims to adopt from the snapshots and from those that were held back meanwhile. -/
def reconcile (here : String) (snapshots : List Snapshot) (stash : List Change) : Reconciled :=
  match snapshots with
  | [] => ⟨[], false⟩
  | first :: _ =>
    if agree first snapshots then ⟨first.members, false⟩
    else ⟨newest here (snapshots.flatMap Snapshot.members ++ stash), true⟩

end Snapshot

end GossipRing
