import Renec.AccountsDb.CleanRuns
import Renec.AccountsDb.Roots
import Renec.Bank.CostTracker
import Renec.Bank.DurableNonce
import Renec.Bank.ReplayProtection
import Renec.Bank.StatusSnapshot
import Renec.BpfLoader.RoundTrip
import Renec.LookupTable.Stability
import Renec.Rent.Chains
import Renec.Runtime.Privileges
import Renec.Stake.Lockup
import Renec.Stake.Payout
import Renec.Stake.Solvency
import Renec.Vote.AuthorizedVoters
import Renec.Vote.NewVoteState
import Renec.Gossip.Convergence
import Renec.Gossip.DuplicateShred
import Renec.Gossip.Pull
import Renec.Consensus.SlotStateOrder
import Renec.Sdk.MessageCompilation
import Renec.Stake.Redemption
import Renec.Vote.SlotHashes
import Renec.Runtime.DataMeter
import Renec.Entry.Poh
import Renec.Stake.Credits
import Renec.Consensus.SlotHistory
import Renec.Rent.FixedCycles
import Renec.Bank.RentDistribution
import Renec.Ledger.ReplayLocks
import Renec.AccountsDb.DeadSlots
import Renec.AccountsDb.CleanReads
import Renec.Ledger.MissingIndexes
import Renec.Consensus.LockoutCheck
import Renec.Consensus.VoteStakeTracker
import Renec.Bank.HardForks
