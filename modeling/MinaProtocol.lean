import MinaProtocol.ParallelScan.Leaner
import MinaProtocol.ParallelScan.Weights
import MinaProtocol.ParallelScan.Conservation
import MinaProtocol.IndexedPool.Transactions
import MinaProtocol.IndexedPool.Diff
import MinaProtocol.IndexedPool.ReplaceFee
import MinaProtocol.Consensus.EpochLedgers
import MinaProtocol.Consensus.UpdateVar
import MinaProtocol.Consensus.Bootstrap
import MinaProtocol.Consensus.CheckedConstants
import MinaProtocol.TransitionFrontier.BestTip
import MinaProtocol.TransitionFrontier.CommonAncestor
import MinaProtocol.TransactionLogic.Authorization
import MinaProtocol.TransactionLogic.Vesting
import MinaProtocol.StagedLedger.Budget
import MinaProtocol.StagedLedger.CreatedDiff
import MinaProtocol.PendingCoinbases.Queue
import MinaProtocol.MerkleLedger.Addresses
import MinaProtocol.Bitswap.DeleteRoot
import MinaProtocol.MerkleLedger.Encodings
import MinaProtocol.MerkleLedger.PrunedReads
import MinaProtocol.TransitionHandler.Runs
import MinaProtocol.FSequence.Split
import MinaProtocol.Base.CheckedFeeExcess
import MinaProtocol.TransactionLogic.CheckedTiming
import MinaProtocol.Currency.Formatting
import MinaProtocol.TransactionLogic.AppliedSequence
import MinaProtocol.TransactionLogic.ZkappHistory
import MinaProtocol.TransactionLogic.FailureTable
import MinaProtocol.TransactionLogic.Rejected
import MinaProtocol.RandomOracleInput.Coding
import MinaProtocol.Base.SignedCommandMemo
import MinaProtocol.NetworkPool.RateLimiter
import MinaProtocol.TransitionFrontier.CatchupHashTree
import MinaProtocol.Base.CallForest
import MinaProtocol.TransactionLogic.PredictedNonce
import MinaProtocol.Base.UpdateGroup
import MinaProtocol.StagedLedger.WorkPairs
import MinaProtocol.TransitionFrontier.ChainProofs
import MinaProtocol.TransactionLogic.VestingSchedule
import MinaProtocol.MerkleLedger.MerklePath
