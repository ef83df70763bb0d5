import Nearcore.RustArith
import Nearcore.ListFacts
import Nearcore.Primitives
import Nearcore.GasCounter
import Nearcore.GasCounterInvariant
import Nearcore.BTreeMap
import Nearcore.TransactionPool
import Nearcore.TransactionOrder
import Nearcore.PrepareTransactions
import Nearcore.PrepareTransactionsOrder
import Nearcore.NibbleSlice
import Nearcore.TrieNode
import Nearcore.TrieInsert
import Nearcore.TrieDelete
import Nearcore.TrieUpdate
import Nearcore.TrieMap
import Nearcore.TrieInsertMap
import Nearcore.TrieDeleteMap
import Nearcore.TrieFlatten
import Nearcore.TrieUpdateMap
import Nearcore.TrieMemoryUsage
import Nearcore.TrieMemoryBound
import Nearcore.TrieUpdateTotal
import Nearcore.RuntimeRefund
import Nearcore.ValidatorSelection
import Nearcore.TransactionValidity
import Nearcore.MerkleList
import Nearcore.Merkle
import Nearcore.DoomslugApprovals
import Nearcore.TrieUpdateOverlay
import Nearcore.TrieUpdateIterator
import Nearcore.MinHeap
import Nearcore.ShardAssignment
import Nearcore.ValidatorSelectionEpochInfo
import Nearcore.ValidatorSelectionWellFormed
import Nearcore.VmRegisters
import Nearcore.LittleEndian
import Nearcore.Refcount
import Nearcore.ReceiptManagerGas
import Nearcore.VmStorage
import Nearcore.ShardLayout
import Nearcore.DoomslugTimer
import Nearcore.ValidatorKickout
import Nearcore.RewardCalculator
import Nearcore.AccountIdValidation
import Nearcore.ChunkEncoding
import Nearcore.TrieKey
import Nearcore.WeightedIndex
import Nearcore.ReceiptProofs
import Nearcore.RouteBackCache
import Nearcore.LexOrder
import Nearcore.FlatStateKeys
import Nearcore.Bitmap
import Nearcore.TrieNodeBorsh
import Nearcore.TrieUpdateMemoryUsage
import Nearcore.RoutingGraph
import Nearcore.Bfs
import Nearcore.RoutingDistance
import Nearcore.RoutingInner
import Nearcore.RoutingUpdate
import Nearcore.RoutingComponents
import Nearcore.LruCache
import Nearcore.RoutingTableView
