import Firebam.Poh.InOrder
import Firebam.Ghost.Accounting
import Firebam.Votor.Exclusion
import Firebam.Votor.Epochs
import Firebam.Votor.Reclaim
import Firebam.Votor.Confluence
import Firebam.Tower.Agreement
import Firebam.Tower.Safety
import Firebam.Tower.Serdes
import Firebam.Keyguard.Ambiguity
import Firebam.Keyguard.Signing
import Firebam.Reasm.Delivery
import Firebam.VoteProgram.Agree
import Firebam.Forks.System
import Firebam.Gossip.Crds
import Firebam.VoteStakes.Admission
import Firebam.VoteStakes.Isolated
import Firebam.StakeDelegations.Rewards
import Firebam.StakeDelegations.System
import Firebam.CostTracker.Bounded
import Firebam.CostTracker.Order
import Firebam.StakeCi.Addresses
import Firebam.Executor.Lamports
import Firebam.Bundle.Order
import Firebam.Bam.Report
import Firebam.Bam.Control
import Firebam.Eqvoc.Proof
import Firebam.Sched.Poison
import Firebam.Txn.Bounds
import Firebam.Stem.Link
