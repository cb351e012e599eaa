/-!
# Failures of a network

How unreliable a network is can be set for one directed link, for everything sent to one address,
and for the whole network. The most specific setting counts: the link, then the target, then the
network.
-/

namespace GossipRing

/-- Settings of one kind for a network, its targets and its links. -/
structure FailureMap (α : Type) where
  network : α
  targets : List (String × α)
  links : List ((String × String) × α)
  deriving Repr

namespace FailureMap

variable {α : Type}

/-- The same setting everywhere. -/
def uniform (setting : α) : FailureMap α := ⟨setting, [], []⟩

/-- The setting with the last word comes first. -/
def setTarget (m : FailureMap α) (address : String) (setting : α) : FailureMap α :=
  { m with targets := (address, setting) :: m.targets }

def setLink (m : FailureMap α) (sender target : String) (setting : α) : FailureMap α :=
  { m with links := ((sender, target), setting) :: m.links }

/-- The setting for what is sent to an address, whoever sends it. -/
def atTarget (m : FailureMap α) (address : String) : α :=
  match m.targets.find? fun entry => entry.1 = address with
  | some entry => entry.2
  | none => m.network

/-- The setting for what one address sends to another. -/
def onLink (m : FailureMap α) (sender target : String) : α :=
  match m.links.find? fun entry => entry.1 = (sender, target) with
  | some entry => entry.2
  | none => m.atTarget target

/-- Setting one target leaves the others alone. -/
theorem atTarget_setTarget (m : FailureMap α) (address other : String) (setting : α) :
    (m.setTarget address setting).atTarget other =
      if other = address then setting else m.atTarget other := by
  by_cases h : other = address
  · simp [atTarget, setTarget, h]
  · have : ¬address = other := fun e => h e.symm
    simp [atTarget, setTarget, h, this]

/-- Setting one link leaves the others alone, its reverse among them. -/
theorem onLink_setLink (m : FailureMap α) (sender target origin other : String) (setting : α) :
    (m.setLink sender target setting).onLink origin other =
      if (origin, other) = (sender, target) then setting else m.onLink origin other := by
  by_cases h : (origin, other) = (sender, target)
  · simp [onLink, setLink, h]
  · have : ¬(sender, target) = (origin, other) := fun e => h e.symm
    simp [onLink, setLink, h, this, atTarget]

end FailureMap

/-- How requests fare on a link. -/
structure Failure where
  /-- Every request is lost. -/
  drops : Bool
  /-- How long a request takes, in milliseconds. -/
  delay : Option Nat
  deriving DecidableEq, Inhabited, Repr

namespace Failure

/-- Every request arrives at once. -/
def none : Failure := ⟨false, .none⟩

end Failure

end GossipRing
