import Mazze.Lib.Loop
import Mazze.Lib.Except
import Mazze.Lib.Reach
import Mazze.Lib.Bfs
import Mazze.Lib.TopoSort
import Mazze.Storage.CompressedPath
import Mazze.Storage.CompressedPathSpec
import Mazze.Storage.Merkle
import Mazze.Storage.Walk
import Mazze.Storage.WalkSpec
import Mazze.Storage.TrieNode
import Mazze.Storage.Trie
import Mazze.Storage.TrieProof
import Mazze.Consensus.TimerChain
import Mazze.Consensus.Arena
import Mazze.Consensus.EpochSet
import Mazze.Consensus.EpochSetSpec
import Mazze.Consensus.Checkpoint
import Mazze.Consensus.EpochSetRuns
import Mazze.Sync.Graph
import Mazze.Lib.Update
import Mazze.Sync.Frame
import Mazze.Sync.Invariant
import Mazze.Sync.Runs
import Mazze.Sync.Propagation
import Mazze.Lib.BinTree
import Mazze.Treap.Node
import Mazze.Treap.Map
import Mazze.Treap.Runs
import Mazze.Treap.Refinement
import Mazze.Lib.Checked
import Mazze.Packing.Batch
import Mazze.Packing.Pool
import Mazze.Packing.Invariant
import Mazze.Packing.Sample
import Mazze.Lib.RlpCodec
import Mazze.Lib.Rlp
import Mazze.Lib.AssocList
import Mazze.Executor.Collateral
import Mazze.Executor.CollateralSpec
import Mazze.Executor.Checkpoint
import Mazze.Primitives.BasePrice
import Mazze.Primitives.Transaction
import Mazze.Primitives.TransactionSpec
import Mazze.TxPool.Pack
import Mazze.TxPool.PackSpec
import Mazze.Executor.CheckpointSpec
import Mazze.Executor.CheckpointRuns
import Mazze.Treap.Ordered
import Mazze.TxPool.NoncePool
import Mazze.Primitives.BasePriceSpec
import Mazze.Packing.BatchSpec
import Mazze.Packing.SplitSpec
import Mazze.Treap.SearchSpec
import Mazze.Treap.Sums
import Mazze.Treap.MapRefinement
import Mazze.Packing.TruncateSpec
import Mazze.Lib.BinaryHeap
import Mazze.Util.HeapMap
import Mazze.Lib.Finmap
import Mazze.Util.HeapMapSpec
import Mazze.Storage.Cache.Lru
import Mazze.Storage.Cache.LruLinks
import Mazze.Storage.Cache.LruSpec
import Mazze.Storage.Cache.LruRefinement
import Mazze.Pow.Boundary
import Mazze.Pow.BoundarySpec
import Mazze.Math.Sqrt
import Mazze.Math.SqrtSpec
import Mazze.Lib.BinarySearch
import Mazze.Primitives.VoteStake
import Mazze.Primitives.VoteStakeSpec
import Mazze.Primitives.StorageKey
import Mazze.Primitives.StorageKeySpec
import Mazze.Addr.Codec
import Mazze.Addr.CodecSpec
import Mazze.Addr.DecodeSpec
import Mazze.Lib.SortedRun
import Mazze.Treap.SearchWalk
import Mazze.TxPool.NoncePoolInv
import Mazze.TxPool.NoncePoolSearch
import Mazze.TxPool.NoncePoolReadiness
import Mazze.Treap.Count
import Mazze.Treap.IterSpec
import Mazze.TxPool.NoncePoolQueries
