import VerusCoin.PruneSpent

/-!
# The pool as a coins view (`CCoinsViewMemPool`, `txmempool.cpp`)

`CCoinsViewMemPool` puts the pool in front of a base coins view. `GetCoins(txid, coins)` answers with the coins of
the pooled transaction of hash `txid` when there is one, built at `MEMPOOL_HEIGHT`, and otherwise with the base's
coins unless they are pruned; `HaveCoins(txid)` asks the pool, then the base; `GetNullifier` (in `Pool.lean`) asks
the pool's nullifier indexes, then the base. The base view's answers are parameters, as in `GetNullifier`.

`CCoins(tx, nHeight)`, `ClearUnspendable` and `IsPruned` are not in this part of the source; they are modelled as the
coins code defines them, with `CScript::IsUnspendable` as a given predicate on scripts. The coins' `nVersion`, which
no modelled function reads, is left out.
-/

namespace VerusCoin

/-- `MEMPOOL_HEIGHT` (`txmempool.h`): the height given to the coins of a pooled transaction. -/
def MEMPOOL_HEIGHT : Int := 0x7FFFFFFF

namespace CCoins

/-- `CCoins::ClearUnspendable()`: every output whose script is unspendable is nulled, then the coins cleaned up. -/
def ClearUnspendable (IsUnspendable : List UInt8 → Bool) (c : CCoins) : CCoins :=
  Cleanup { c with vout := c.vout.map fun o => if IsUnspendable o.scriptPubKey then o.SetNull else o }

/-- `CCoins(tx, nHeightIn)` (`FromTx`): the coinbase flag and the outputs of `tx` at height `nHeightIn`, with the
unspendable outputs cleared. -/
def FromTx (IsUnspendable : List UInt8 → Bool) (tx : CTransaction) (nHeightIn : Int) : CCoins :=
  ClearUnspendable IsUnspendable ⟨tx.isCoinBase, tx.vout, nHeightIn⟩

/-- `CCoins::IsPruned()`: every output is spent. -/
def IsPruned (c : CCoins) : Bool := c.vout.all CTxOut.IsNull

end CCoins

namespace CTxMemPool

/-- `CCoinsViewMemPool::GetCoins(txid, coins)`, over the base view's `GetCoins`; `none` when it returns `false` (the
coins it leaves in the out-parameter then are not modelled). -/
def GetCoins (s : CTxMemPool) (IsUnspendable : List UInt8 → Bool) (baseGetCoins : Uint256 → Option CCoins)
    (txid : Uint256) : Option CCoins :=
  match s.lookup txid with
  | some tx => some (CCoins.FromTx IsUnspendable tx MEMPOOL_HEIGHT)
  | none => (baseGetCoins txid).filter fun coins => !coins.IsPruned

/-- `CCoinsViewMemPool::HaveCoins(txid)`, over the base view's `HaveCoins`. -/
def HaveCoins (s : CTxMemPool) (baseHaveCoins : Uint256 → Bool) (txid : Uint256) : Bool :=
  s.exists txid || baseHaveCoins txid

end CTxMemPool

end VerusCoin
