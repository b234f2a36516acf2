import Boule.Lib.Table
import Boule.Basic
import Boule.Lib.Quorum
import Boule.SignerBitmap
import Boule.Lib.Search
import Boule.ValidatorSet
import Boule.ValidatorHistory
import Boule.HotStuff.Qc
import Boule.HotStuff.SafetyRules
import Boule.HotStuff.Accept
import Boule.HotStuff.Core
import Boule.HotStuff.Calls
import Boule.Lib.ChainSafety
import Boule.Lib.Run
import Boule.HotStuff.Headers
import Boule.HotStuff.Agreement
import Boule.HotStuff.CommitOrder
import Boule.KeyHistory
import Boule.Dispatch.Verify
import Boule.Dispatch.Ingress
import Boule.Reconfig
import Boule.HotStuff.QcUnique
import Boule.HotStuff.VoteBuckets
import Boule.Lib.Turns
import Boule.Lib.Promises
import Boule.Pacemaker.Leader
import Boule.Pacemaker.Schedule
import Boule.Pacemaker.Step
import Boule.Pacemaker.Views
import Boule.Lib.Shares
import Boule.Pacemaker.Proportion
import Boule.Node.Storage
import Boule.Node.ConsensusNode
import Boule.Node.Machine
import Boule.Node.Effects
import Boule.Node.History
import Boule.Node.NoDoubleVote
import Boule.Node.Blocks
import Boule.Node.Bodies
import Boule.Node.ProposalShape
import Boule.Node.Boundaries
import Boule.Rotation
import Boule.HistoryCommitment
import Boule.Snapshot
import Boule.SnapshotSync
import Boule.Node.Restore
import Boule.Node.Restored
import Boule.Node.FailedRestore
import Boule.Node.Joining
import Boule.Lib.WriteAhead
import Boule.HotStuff.Records
import Boule.Node.Ledger
import Boule.Node.Moves
import Boule.Node.Registers
import Boule.Node.OneProposal
import Boule.Node.Recovery
import Boule.Node.Rotations
import Boule.Node.Assigned
import Boule.Node.Heard
import Boule.HistoryLookups
import Boule.HistoryReload
import Boule.Reth.Registry
import Boule.Reth.Governance
import Boule.Node.LeaderVotes
import Boule.Node.CommitRecord
import Boule.Node.TimeoutBuckets
import Boule.Node.Timeouts
import Boule.Reth.DerivedWeights
import Boule.Reth.KeyMirror
import Boule.ConsensusParams
import Boule.EndpointRegistry
import Boule.Node.ChainState
import Boule.Node.CommitLag
import Boule.Node.RestartedHistories
import Boule.Node.StampedChain
import Boule.Node.TakeSnapshot
import Boule.Lib.Leb128
import Boule.Node.WeakSubjectivity
import Boule.Reth.Slashing
import Boule.HotStuff.Equivocations
import Boule.HotStuff.VoteEvictions
import Boule.Node.Divergence
import Boule.Node.Evidence
import Boule.Node.ExecutionLag
import Boule.Node.RestartedStake
import Boule.Node.RotatableSigner
import Boule.Node.TimeoutEvictions
import Boule.NextMembers
import Boule.Node.Convictions
import Boule.Node.StagedUpdates
import Boule.Node.QuorumWeights
import Boule.HotStuff.Ancestry
import Boule.HotStuff.HighQc
import Boule.HotStuff.LockOrder
import Boule.Node.Role
import Boule.HotStuff.Evictions
import Boule.HotStuff.Unevicted
import Boule.HotStuff.Parked
import Boule.HotStuff.Judgement
import Boule.HotStuff.Replay
import Boule.HotStuff.ReplayOrder
import Boule.HotStuff.ReplayAgree
import Boule.Node.FetchBooks
import Boule.Node.StagedLanding
import Boule.Node.KeyRuns
import Boule.Node.Lockstep
import Boule.Node.OperatorKeys
import Boule.CommitmentBytes
import Boule.Node.RoundTrips
import Boule.HotStuff.SyncPeer
import Boule.HotStuff.Awaited
import Boule.Lib.Totals
import Boule.Node.FetchRounds
import Boule.Node.FetchOutcomes
import Boule.Node.FetchProgress
import Boule.Node.FetchRestores
import Boule.Lib.KeyScan
import Boule.Node.BlockRows
import Boule.Node.FetchRequests
import Boule.Node.StoredSnapshots
import Boule.Lib.Lineage
import Boule.Lib.Merged
import Boule.Lib.ReplayGuard
import Boule.Node.EndpointRuns
import Boule.Node.RangeServing
import Boule.Reth.StakeAccounts
import Boule.Lib.LazyIndex
import Boule.RewardLedger
import Boule.RewardRuns
import Boule.DiskWal
import Boule.Lib.Cursor
import Boule.Lib.Hex
import Boule.Lib.Outbox
import Boule.Lib.SolidityStorage
import Boule.Lib.Tally
import Boule.Liveness
import Boule.Node.CommandSpace
import Boule.Reth.PendingWeights
import Boule.Reth.PredeployLogs
import Boule.Reth.RegistryCodec
import Boule.Reth.RegistryRuns
import Boule.Lib.Capped
import Boule.Lib.Climb
import Boule.Lib.Permits
import Boule.Lib.FallibleRun
import Boule.ConnectionLimits
import Boule.Backoff
import Boule.BitmapAccess
import Boule.Reth.AmountText
import Boule.Node.ViewLookups
import Boule.Reth.ProofSources
import Boule.Reth.LinkedSources
import Boule.Reth.SourceViews
import Boule.Lib.ViewSync
import Boule.Node.ViewSync
import Boule.Node.ViewNet
import Boule.Node.ViewProgress
import Boule.HotStuff.Progress
import Boule.HotStuff.KeptQcs
import Boule.Dispatch.FormedQcs
import Boule.Lib.SlidingWindow
import Boule.Reth.RpcProxy
import Boule.Reth.Faucet
import Boule.Lib.HashToField
import Boule.Lib.PairingCheck
import Boule.Reth.BlsVerify
import Boule.Reth.ForgedProofs
import Boule.HotStuff.Handover
import Boule.Node.Rounds
