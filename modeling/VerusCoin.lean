import VerusCoin.StdMap
import VerusCoin.Primitives
import VerusCoin.TxSet
import VerusCoin.Pool
import VerusCoin.Eviction
import VerusCoin.Run
import VerusCoin.Invariant
import VerusCoin.Lemmas.Basic
import VerusCoin.Lemmas.Closed
import VerusCoin.Lemmas.PoolInv
import VerusCoin.Lemmas.Counters
import VerusCoin.Theorems.Indexes
import VerusCoin.Merkle
import VerusCoin.MerkleLevels
import VerusCoin.Lemmas.MerkleRefine
import VerusCoin.Theorems.Merkle
import VerusCoin.Descendants
import VerusCoin.Lemmas.EraseEntries
import VerusCoin.Lemmas.RemoveWalk
import VerusCoin.Lemmas.RemoveSeq
import VerusCoin.Theorems.Remove
import VerusCoin.Theorems.Counters
import VerusCoin.Lemmas.Conflicts
import VerusCoin.Lemmas.StaleEntries
import VerusCoin.Theorems.Conflicts
import VerusCoin.Lemmas.Block
import VerusCoin.Theorems.Block
import VerusCoin.Lemmas.RemoveAll
import VerusCoin.Theorems.Reorg
import VerusCoin.Theorems.Evictions
import VerusCoin.Check
import VerusCoin.Lemmas.Check
import VerusCoin.Theorems.Check
import VerusCoin.PruneSpent
import VerusCoin.Lemmas.PruneSpent
import VerusCoin.Theorems.PruneSpent
import VerusCoin.Priority
import VerusCoin.Theorems.Priority
import VerusCoin.Notary
import VerusCoin.Theorems.Notary
import VerusCoin.CompactPower
import VerusCoin.Theorems.CompactPower
import VerusCoin.Lemmas.Deltas
import VerusCoin.Theorems.Deltas
import VerusCoin.Theorems.CheckIndexes
import VerusCoin.Index
import VerusCoin.Lemmas.Index
import VerusCoin.Theorems.Index
import VerusCoin.Notify
import VerusCoin.Lemmas.Notify
import VerusCoin.Theorems.Notify
import VerusCoin.CoinsView
import VerusCoin.Theorems.CoinsView
import VerusCoin.Sign
import VerusCoin.Lemmas.Sign
import VerusCoin.Theorems.Sign
