import VerusCoin.Pool

/-!
# The eviction policies (`txmempool.cpp`)

Every policy funnels into `remove`. The external inputs of each (the coins view, `CheckFinalTx`, the chain tip,
`IsExpiredTx`, the Komodo hooks) are given functions or values.
-/

namespace VerusCoin

namespace CTxMemPool

/-- Remove each transaction of a list recursively, with a fresh `removed` list each time (the loops that end
`removeForReorg`, `removeWithAnchor`, `removeExpired` and `removeWithoutBranchId`). -/
def removeAll (s : CTxMemPool) (txs : List CTransaction) : CTxMemPool :=
  txs.foldl (fun s tx => (s.remove tx [] true).1) s

/-! ## `removeConflicts` and `removeForBlock` -/

/-- One loop of `removeConflicts`: for each key, the transaction an index records for it, when it is not `tx`
(`CTransaction`'s `!=` compares hashes), is removed recursively. The source dereferences the index's pointer
(`*it->second`); after `clear()` a nullifier entry points into a destroyed entry and that read is of freed memory,
where the model reads the transaction that was pooled. -/
def removeConflictsBy {K : Type} (look : CTxMemPool → K → Option CTransaction) (tx : CTransaction) (ks : List K)
    (acc : CTxMemPool × List CTransaction) : CTxMemPool × List CTransaction :=
  ks.foldl (fun acc k =>
    match look acc.1 k with
    | some txConflict => if txConflict.hash ≠ tx.hash then acc.1.remove txConflict acc.2 true else acc
    | none => acc) acc

/-- `CTxMemPool::removeConflicts(tx, removed)`: over the inputs, then the Sprout nullifiers, then the Sapling ones. -/
def removeConflicts (s : CTxMemPool) (tx : CTransaction) (removed : List CTransaction) :
    CTxMemPool × List CTransaction :=
  let acc := removeConflictsBy (fun s o => (s.mapNextTx.find o).map (·.ptx)) tx tx.prevouts (s, removed)
  let acc := removeConflictsBy (fun s nf => s.mapSproutNullifiers.find nf) tx tx.sproutNullifiers acc
  removeConflictsBy (fun s nf => s.mapSaplingNullifiers.find nf) tx tx.saplingNullifiers acc

/-- `CTxMemPool::removeForBlock(vtx, nBlockHeight, conflicts, fCurrentEstimate)`: per block transaction, a
non-recursive `remove`, `removeConflicts` into `conflicts`, and `ClearPrioritisation`. The entries collected for the
fee estimator, the height and `fCurrentEstimate` only feed the estimator. -/
def removeForBlock (s : CTxMemPool) (vtx : List CTransaction) (conflicts : List CTransaction) :
    CTxMemPool × List CTransaction :=
  vtx.foldl (fun acc tx =>
    let s := (acc.1.remove tx [] false).1
    let r := s.removeConflicts tx acc.2
    (r.1.ClearPrioritisation tx.hash, r.2)) (s, conflicts)

/-! ## `removeForReorg` -/

/-- The chain context `removeForReorg` reads: `CheckFinalTx`, `komodo_block_unlocktime`, `ASSETCHAINS_TIMELOCKGTE`,
whether `ASSETCHAINS_SYMBOL` is empty, and the value the global `COINBASE_MATURITY` holds otherwise. -/
structure ReorgContext where
  CheckFinalTx : CTransaction → Int → Bool
  komodo_block_unlocktime : Int → Int
  ASSETCHAINS_TIMELOCKGTE : UInt64
  assetchainsSymbolEmpty : Bool
  COINBASE_MATURITY : Int

/-- The maturity `removeForReorg` compares with: it first sets `COINBASE_MATURITY = _COINBASE_MATURITY` (100) on the
chain whose symbol is empty. -/
def ReorgContext.maturity (ctx : ReorgContext) : Int :=
  if ctx.assetchainsSymbolEmpty then 100 else ctx.COINBASE_MATURITY

/-- `height - coins->nHeight < COINBASE_MATURITY`, in signed arithmetic. -/
def reorgImmature (ctx : ReorgContext) (nMemPoolHeight : UInt32) (coins : CCoins) : Bool :=
  decide ((nMemPoolHeight.toNat : Int) - coins.nHeight < ctx.maturity)

/-- `height < komodo_block_unlocktime(coins->nHeight) && coins->IsAvailable(0) && coins->vout[0].nValue >=
ASSETCHAINS_TIMELOCKGTE`. The comparison of the `int64` value with the `uint64` threshold converts the value to
`uint64`. -/
def reorgTimelocked (ctx : ReorgContext) (nMemPoolHeight : UInt32) (coins : CCoins) : Bool :=
  decide ((nMemPoolHeight.toNat : Int) < ctx.komodo_block_unlocktime coins.nHeight) && coins.IsAvailable 0 &&
    decide (((coins.vout.headD ⟨0, []⟩).nValue % 2 ^ 64).toNat ≥ ctx.ASSETCHAINS_TIMELOCKGTE.toNat)

/-- The test `removeForReorg` applies to the coins of an input whose parent is not pooled, with C++ precedence:
`!coins || (coins->IsCoinBase() && immature) || timelocked`. -/
def reorgEvicts (ctx : ReorgContext) (nMemPoolHeight : UInt32) : Option CCoins → Bool
  | none => true
  | some coins =>
    (coins.fCoinBase && reorgImmature ctx nMemPoolHeight coins) || reorgTimelocked ctx nMemPoolHeight coins

/-- The input loop of `removeForReorg` for a transaction that spends a coinbase: `some true` at the first input that
evicts (`break`), `none` when `assert(coins)` fails (checks enabled and coins missing). -/
def reorgScanInputs (ctx : ReorgContext) (s : CTxMemPool) (pcoins : Uint256 → Option CCoins)
    (nMemPoolHeight : UInt32) : List CTxIn → Option Bool
  | [] => some false
  | txin :: rest =>
    if s.mapTx.count txin.prevout.hash then reorgScanInputs ctx s pcoins nMemPoolHeight rest
    else
      let coins := pcoins txin.prevout.hash
      if s.nCheckFrequency ≠ 0 ∧ coins.isNone then none
      else if reorgEvicts ctx nMemPoolHeight coins then some true
      else reorgScanInputs ctx s pcoins nMemPoolHeight rest

/-- The scan of `mapTx` in `removeForReorg`: the transactions to remove, in iteration order. -/
def reorgCollect (ctx : ReorgContext) (s : CTxMemPool) (pcoins : Uint256 → Option CCoins) (nMemPoolHeight : UInt32)
    (flags : Int) : List CTxMemPoolEntry → Option (List CTransaction)
  | [] => some []
  | e :: rest =>
    if !ctx.CheckFinalTx e.tx flags then (reorgCollect ctx s pcoins nMemPoolHeight flags rest).map (e.tx :: ·)
    else if e.spendsCoinbase then
      match reorgScanInputs ctx s pcoins nMemPoolHeight e.tx.vin with
      | none => none
      | some true => (reorgCollect ctx s pcoins nMemPoolHeight flags rest).map (e.tx :: ·)
      | some false => reorgCollect ctx s pcoins nMemPoolHeight flags rest
    else reorgCollect ctx s pcoins nMemPoolHeight flags rest

/-- `CTxMemPool::removeForReorg(pcoins, nMemPoolHeight, flags)`; `none` when an assertion aborts. -/
def removeForReorg (ctx : ReorgContext) (s : CTxMemPool) (pcoins : Uint256 → Option CCoins)
    (nMemPoolHeight : UInt32) (flags : Int) : Option CTxMemPool :=
  (reorgCollect ctx s pcoins nMemPoolHeight flags s.mapTx.entries).map s.removeAll

/-! ## Anchors, expiry, branch ids -/

/-- The anchors of a transaction's spends in one shielded pool. -/
def anchors (tx : CTransaction) : ShieldedType → List Uint256
  | .SPROUT => tx.vJoinSplit.map (·.anchor)
  | .SAPLING => tx.vShieldedSpend.map (·.anchor)

/-- `CTxMemPool::removeWithAnchor(invalidRoot, type)`. -/
def removeWithAnchor (s : CTxMemPool) (invalidRoot : Uint256) (type : ShieldedType) : CTxMemPool :=
  s.removeAll ((s.mapTx.entries.filter (fun e => invalidRoot ∈ anchors e.tx type)).map (·.tx))

/-- The chain context `removeExpired` reads: `IsExpiredTx`, `komodo_validate_interest`, whether `ASSETCHAINS_SYMBOL`
is empty, and the tip (its height and median time past), if any. -/
structure ExpiryContext where
  IsExpiredTx : CTransaction → UInt32 → Bool
  komodo_validate_interest : CTransaction → Int → Int → Int → Int
  assetchainsSymbolEmpty : Bool
  tip : Option (Int × Int)

/-- The test of `removeExpired`, parenthesised as the code is: `IsExpiredTx(tx, h) || (symbol empty && tip &&
komodo_validate_interest(...)) < 0`, where the conjunction is a `bool` (0 or 1) compared with 0. -/
def expired (ctx : ExpiryContext) (nBlockHeight : UInt32) (tx : CTransaction) : Bool :=
  ctx.IsExpiredTx tx nBlockHeight ||
    decide ((if ctx.assetchainsSymbolEmpty && (match ctx.tip with
      | some (height, mtp) => ctx.komodo_validate_interest tx (height + 1) (mtp + 777) 0 ≠ 0
      | none => false) then (1 : Int) else 0) < 0)

/-- `CTxMemPool::removeExpired(nBlockHeight)`. -/
def removeExpired (ctx : ExpiryContext) (s : CTxMemPool) (nBlockHeight : UInt32) : CTxMemPool :=
  s.removeAll ((s.mapTx.entries.filter (fun e => expired ctx nBlockHeight e.tx)).map (·.tx))

/-- `CTxMemPool::removeWithoutBranchId(nMemPoolBranchId)`. -/
def removeWithoutBranchId (s : CTxMemPool) (nMemPoolBranchId : UInt32) : CTxMemPool :=
  s.removeAll ((s.mapTx.entries.filter (fun e => e.nBranchId ≠ nMemPoolBranchId)).map (·.tx))

end CTxMemPool

end VerusCoin
