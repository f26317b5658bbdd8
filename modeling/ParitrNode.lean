import ParitrNode.Library.Bytes
import ParitrNode.Library.Checked
import ParitrNode.Codec
import ParitrNode.Params
import ParitrNode.Crypto
import ParitrNode.Library.OrderedMap
import ParitrNode.Library.PairedMerkle
import ParitrNode.Library.SparseMerkle
import ParitrNode.Library.Recodes
import ParitrNode.Library.Apportionment
import ParitrNode.Library.KeyOrder
import ParitrNode.Library.AscendingReads
import ParitrNode.Library.CrossOrder
import ParitrNode.Library.EventLog
import ParitrNode.Library.BinaryScale
import ParitrNode.Library.Greatest
import ParitrNode.Library.BestSeen
import ParitrNode.Library.FixedWindow
import ParitrNode.Library.Registry
import ParitrNode.Library.QueuedFetch
import ParitrNode.Library.Paging
import ParitrNode.Difficulty
import ParitrNode.CompactTargets
import ParitrNode.State
import ParitrNode.Types
import ParitrNode.WireFormat
import ParitrNode.Rewards
import ParitrNode.Validation
import ParitrNode.Chain
import ParitrNode.Acceptance
import ParitrNode.ShareChain
import ParitrNode.LinkedChain
import ParitrNode.RewardSplit
import ParitrNode.Accounting
import ParitrNode.Conservation
import ParitrNode.Scheduled
import ParitrNode.MoneySupply
import ParitrNode.ScheduledShares
import ParitrNode.ShareHeaders
import ParitrNode.SharePrefixes
import ParitrNode.NearMiss
import ParitrNode.RoundTrip
import ParitrNode.BodyCommitment
import ParitrNode.TransactionNonces
import ParitrNode.StateTree
import ParitrNode.TreeRefinement
import ParitrNode.StateCommitment
import ParitrNode.SnapshotCodec
import ParitrNode.Mempool
import ParitrNode.MempoolSelection
import ParitrNode.MempoolIndex
import ParitrNode.Storage
import ParitrNode.WorksharePool
import ParitrNode.Wire
import ParitrNode.WireFrames
import ParitrNode.Node
import ParitrNode.LivePool
import ParitrNode.Replayed
import ParitrNode.ShareWork
import ParitrNode.Retarget
import ParitrNode.Asert
import ParitrNode.CompactRounding
import ParitrNode.SharePaths
import ParitrNode.PathWork
import ParitrNode.GossipOrder
import ParitrNode.RewardPayout
import ParitrNode.FairRewards
import ParitrNode.NextBlock
import ParitrNode.TemplateRoom
import ParitrNode.FundedChain
import ParitrNode.MempoolOutcomes
import ParitrNode.RewardReports
import ParitrNode.FloodedCache
import ParitrNode.RecycledFees
import ParitrNode.Miner
import ParitrNode.ShareAdmission
import ParitrNode.MinedShares
import ParitrNode.WitnessSize
import ParitrNode.BlockStore
import ParitrNode.DurableChain
import ParitrNode.TimedChain
import ParitrNode.ForkChoice
import ParitrNode.CatchUp
import ParitrNode.SideBranches
import ParitrNode.Relay
import ParitrNode.MessageBudget
import ParitrNode.Sessions
import ParitrNode.SnapshotRetention
import ParitrNode.StaleEntries
import ParitrNode.HeaderSync
import ParitrNode.GossipedSync
import ParitrNode.Handshake
import ParitrNode.GreedySelection
import ParitrNode.QueuedRuns
import ParitrNode.AccountView
import ParitrNode.AddressHistory
import ParitrNode.WalletBooks
import ParitrNode.RotatingFinders
import ParitrNode.LargeSnapshots
import ParitrNode.CrowdedPool
import ParitrNode.ChainLedger
import ParitrNode.SeedEpochs
