import GossipRing.Hash.Elementary
import GossipRing.Json.Reader
import GossipRing.Json.Writer
import GossipRing.Network.Session
import GossipRing.Wire.Event
import GossipRing.Proofs.TreeRefinement
import GossipRing.Proofs.Routing
import GossipRing.Proofs.LocalMember
import GossipRing.Proofs.Convergence
import GossipRing.Proofs.FullSync
import GossipRing.Proofs.Cluster
import GossipRing.Proofs.Retransmission
import GossipRing.Proofs.SuspicionTimers
import GossipRing.Proofs.Checksums
import GossipRing.Proofs.WaitingClaims
import GossipRing.Proofs.ClosedGate
import GossipRing.Proofs.SuspectWatch
import GossipRing.Proofs.Joining
import GossipRing.Proofs.EventLog
import GossipRing.Proofs.Rebuttals
import GossipRing.Proofs.Departure
import GossipRing.Proofs.ChecksumTexts
import GossipRing.Proofs.Silence
import GossipRing.Proofs.Headroom
import GossipRing.Proofs.Attestation
import GossipRing.Proofs.OwnWord
import GossipRing.Proofs.Meeting
import GossipRing.Proofs.AgreedSnapshots
import GossipRing.Proofs.Destruction
import GossipRing.Proofs.Attachments
import GossipRing.Proofs.WireFormats
import GossipRing.Proofs.Preferences
import GossipRing.Proofs.Reconfiguration
import GossipRing.Proofs.Refusals
import GossipRing.Proofs.FailedBootstraps
import GossipRing.Proofs.NewestClaims
import GossipRing.Proofs.RingBatches
import GossipRing.Proofs.Probes
import GossipRing.Proofs.ArenaBalance
import GossipRing.Proofs.ArenaRefinement
import GossipRing.Proofs.Expiries
import GossipRing.Proofs.HandOuts
import GossipRing.Proofs.ProbePasses
import GossipRing.Proofs.JoinRounds
import GossipRing.Proofs.RowPositions
import GossipRing.Proofs.ArenaIntegrity
import GossipRing.Proofs.RingArena
