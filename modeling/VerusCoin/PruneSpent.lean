import Mathlib.Data.List.DropRight
import VerusCoin.Pool

/-!
# `CTxMemPool::pruneSpent` (`txmempool.cpp`)

`pruneSpent(hashTx, coins)` walks `mapNextTx` from `lower_bound(COutPoint(hashTx, 0))` while the key's hash is
`hashTx` and spends each key's output in `coins`. A `std::map` iterates in key order; the model's map is the list of
its entries in that order, so `lower_bound` is the suffix from the first key not less than its argument.

`CCoins::Spend` and `CTxOut::SetNull` are not in this part of the source; they are modelled as the coins code defines
them: an available output is nulled (value `-1`, empty script) and the trailing null outputs dropped (`Cleanup`).
-/

namespace VerusCoin

/-- `CTxOut::SetNull()`: the value `-1` and an empty script. -/
def CTxOut.SetNull (o : CTxOut) : CTxOut := { o with nValue := -1, scriptPubKey := [] }

/-- `CCoins::Cleanup()`: the trailing null outputs are dropped. -/
def CCoins.Cleanup (c : CCoins) : CCoins := { c with vout := c.vout.rdropWhile CTxOut.IsNull }

/-- `CCoins::Spend(nPos)`: an available output is nulled and the coins cleaned up; otherwise nothing changes (the
`bool` it returns is not read by `pruneSpent`). -/
def CCoins.Spend (c : CCoins) (nPos : Nat) : CCoins :=
  if c.IsAvailable nPos then CCoins.Cleanup { c with vout := c.vout.modify CTxOut.SetNull nPos } else c

/-- `map.lower_bound(k)` and the iteration from it: the entries from the first whose key is not less than `k`. -/
def StdMap.lowerBound {K V : Type} [Ord K] (m : StdMap K V) (k : K) : List (K × V) :=
  m.entries.dropWhile (fun p => compare p.1 k = .lt)

namespace CTxMemPool

/-- `CTxMemPool::pruneSpent(hashTx, coins)`: from `mapNextTx.lower_bound(COutPoint(hashTx, 0))`, while the key's hash
is `hashTx`, `coins.Spend(key.n)`. -/
def pruneSpent (s : CTxMemPool) (hashTx : Uint256) (coins : CCoins) : CCoins :=
  ((s.mapNextTx.lowerBound ⟨hashTx, 0⟩).takeWhile (fun p => p.1.hash = hashTx)).foldl (fun c p => c.Spend p.1.n) coins

end CTxMemPool

end VerusCoin
