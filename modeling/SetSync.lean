import SetSync.Lib.Program
import SetSync.Lib.Addressed
import SetSync.Lib.Merkle
import SetSync.Bits
import SetSync.TrieNode
import SetSync.KeyValueTrie
import SetSync.Lib.Rewrite
import SetSync.TrieInsert
import SetSync.TrieErase
import SetSync.TrieSpec
import SetSync.SetOps
import SetSync.TrieRuns
import SetSync.TrieRefinement
import SetSync.TrieConsistency
import SetSync.TrieEquality
import SetSync.LazyUpdates
import SetSync.WideDigests
import SetSync.BloomFilter
import SetSync.BloomSpec
import SetSync.Set
import SetSync.SetRuns
import SetSync.SubTrie
import SetSync.SyncProcess
import SetSync.LooseSync
import SetSync.Lib.Pipeline
import SetSync.SyncSteps
import SetSync.SyncSystem
import SetSync.SyncRuns
import SetSync.StrictSync
import SetSync.SetInsert
import SetSync.BloomLists
import SetSync.BloomReopen
import SetSync.BloomExact
import SetSync.TrieMethods
import SetSync.TrieFrames
import SetSync.TrieReopen
import SetSync.SetData
import SetSync.FailedCalls
import SetSync.SetReopen
import SetSync.SubTrieCut
import SetSync.TrieInvariant
import SetSync.StorageFailure
import SetSync.MixedKeys
import SetSync.Lib.Worklist
import SetSync.TrieDiff
import SetSync.InsertingSync
import SetSync.BloomBatch
import SetSync.MemoryFilter
import SetSync.FilterOperators
import SetSync.SubTrieRequest
import SetSync.MemoryCache
import SetSync.Lib.Streaming
import SetSync.Md2
import SetSync.StreamHash
import SetSync.TransferCounters
import SetSync.Lib.Ranking
import SetSync.Lib.Splitting
import SetSync.SyncMoves
import SetSync.SyncRank
import SetSync.StrictProgress
import SetSync.StrictTraffic
import SetSync.SyncLoop
import SetSync.Lib.Schedules
import SetSync.InsertingProgress
import SetSync.LooseExchange
import SetSync.Lib.BlockStream
import SetSync.BlockDigest
import SetSync.MessageDigests
import SetSync.Lib.EnoughFuel
import SetSync.StrictExchange
import SetSync.EvaluationRun
