import VerusCoin.TxSet

/-!
# The pool: `CTxMemPool` and its bookkeeping (`txmempool.cpp`)

The state holds every member the operations of `txmempool.cpp` read or write. The fee estimator
(`minerPolicyEstimator`), the log and the lock are left out: the pool never reads back what they hold.
`fAddressIndex` and `fSpentIndex` are the node's global flags, which `remove` reads.

`mapNextTx` (through `CInPoint::ptx`), `mapSproutNullifiers`, `mapSaplingNullifiers` and `mapRecentlyAddedTx` hold
pointers to the transactions inside the entries of `mapTx`; the model stores the transaction itself. The two agree while
every pointer names a live entry, as in every state a run without `clear()` reaches. `clear()` destroys the entries but
leaves the nullifier maps and `mapRecentlyAddedTx`, whose pointers then name freed memory: a `removeConflicts` that
follows such an entry and a `NotifyRecentlyAdded` that delivers one read freed memory in the source, where the model reads
the transaction that was pooled. The only theorems that read through such an entry are those exhibiting the state
`clear()` leaves.
-/

namespace VerusCoin

/-- `CTxMemPool`. -/
structure CTxMemPool where
  mapTx : TxSet
  mapNextTx : StdMap COutPoint CInPoint
  mapSproutNullifiers : StdMap Uint256 CTransaction
  mapSaplingNullifiers : StdMap Uint256 CTransaction
  mapRecentlyAddedTx : StdMap Uint256 CTransaction
  nRecentlyAddedSequence : UInt64
  nNotifiedSequence : UInt64
  mapDeltas : StdMap Uint256 (Float × Int)
  mapReserveTransactions : StdMap Uint256 CReserveTransactionDescriptor
  mapAddress : StdMap CMempoolAddressDeltaKey CMempoolAddressDelta
  mapAddressInserted : StdMap Uint256 (List CMempoolAddressDeltaKey)
  mapSpent : StdMap CSpentIndexKey CSpentIndexValue
  mapSpentInserted : StdMap Uint256 (List CSpentIndexKey)
  nTransactionsUpdated : UInt32
  totalTxSize : UInt64
  cachedInnerUsage : UInt64
  nCheckFrequency : UInt32
  fAddressIndex : Bool
  fSpentIndex : Bool

/-- `ShieldedType`: the two shielded pools. The code's `default:` branches, which throw, are unreachable here. -/
inductive ShieldedType where
  | SPROUT
  | SAPLING
  deriving DecidableEq, Repr

namespace CTxMemPool

/-- A freshly constructed pool (`CTxMemPool::CTxMemPool`), with the node's index flags. -/
def empty (fAddressIndex fSpentIndex : Bool) : CTxMemPool where
  mapTx := .empty
  mapNextTx := .empty
  mapSproutNullifiers := .empty
  mapSaplingNullifiers := .empty
  mapRecentlyAddedTx := .empty
  nRecentlyAddedSequence := 0
  nNotifiedSequence := 0
  mapDeltas := .empty
  mapReserveTransactions := .empty
  mapAddress := .empty
  mapAddressInserted := .empty
  mapSpent := .empty
  mapSpentInserted := .empty
  nTransactionsUpdated := 0
  totalTxSize := 0
  cachedInnerUsage := 0
  nCheckFrequency := 0
  fAddressIndex := fAddressIndex
  fSpentIndex := fSpentIndex

/-! ## Insertion -/

/-- The `mapNextTx` assignments of `addUnchecked`: input `i` of `tx` is spent by `CInPoint(&tx, i)`. -/
def nextTxEntries (tx : CTransaction) : List (COutPoint × CInPoint) :=
  tx.vin.enum.map (fun p => (p.2.prevout, ⟨tx, p.1⟩))

/-- `CTxMemPool::addUnchecked(hash, entry)`. The code reads the transaction back through `mapTx.find(hash)`,
defined when `hash` is pooled after the insert; the model falls back to the entry's own transaction otherwise. -/
def addUnchecked (s : CTxMemPool) (hash : Uint256) (entry : CTxMemPoolEntry) : CTxMemPool :=
  let mapTx := s.mapTx.insert entry
  let tx := ((mapTx.find hash).getD entry).tx
  { s with
    mapTx := mapTx
    mapRecentlyAddedTx := s.mapRecentlyAddedTx.insert tx.hash tx
    nRecentlyAddedSequence := s.nRecentlyAddedSequence + 1
    mapNextTx := if tx.isCoinImport then s.mapNextTx else s.mapNextTx.insertAll (nextTxEntries tx)
    mapSproutNullifiers := s.mapSproutNullifiers.insertAll (tx.sproutNullifiers.map (·, tx))
    mapSaplingNullifiers := s.mapSaplingNullifiers.insertAll (tx.saplingNullifiers.map (·, tx))
    nTransactionsUpdated := s.nTransactionsUpdated + 1
    totalTxSize := s.totalTxSize + entry.nTxSize
    cachedInnerUsage := s.cachedInnerUsage + entry.nUsageSize }

/-! ## Prioritisation -/

/-- `CTxMemPool::PrioritiseTransaction`: add to the deltas of `hash`, starting from `(0, 0)`. -/
def PrioritiseTransaction (s : CTxMemPool) (hash : Uint256) (dPriorityDelta : Float) (nFeeDelta : Int) :
    CTxMemPool :=
  let d := (s.mapDeltas.find hash).getD (0, 0)
  { s with mapDeltas := s.mapDeltas.insert hash (d.1 + dPriorityDelta, d.2 + nFeeDelta) }

/-- `CTxMemPool::ApplyDeltas`: the two accumulators, increased by the deltas of `hash` when it has any. -/
def ApplyDeltas (s : CTxMemPool) (hash : Uint256) (dPriorityDelta : Float) (nFeeDelta : Int) : Float × Int :=
  match s.mapDeltas.find hash with
  | some d => (dPriorityDelta + d.1, nFeeDelta + d.2)
  | none => (dPriorityDelta, nFeeDelta)

/-- `CTxMemPool::ClearPrioritisation`. -/
def ClearPrioritisation (s : CTxMemPool) (hash : Uint256) : CTxMemPool :=
  { s with mapDeltas := s.mapDeltas.erase hash, mapReserveTransactions := s.mapReserveTransactions.erase hash }

/-- `CTxMemPool::PrioritiseReserveTransaction`, with `currencyState.ReserveToNative` given. -/
def PrioritiseReserveTransaction (s : CTxMemPool) (txDesc : CReserveTransactionDescriptor)
    (ReserveToNative : Int → Int) : CTxMemPool × Bool :=
  let hash := txDesc.ptx.hash
  if txDesc.valid then
    let s := { s with mapReserveTransactions := s.mapReserveTransactions.insert hash txDesc }
    let feeDelta := ReserveToNative (txDesc.reserveFees + txDesc.reserveConversionFees) + txDesc.nativeConversionFees
    (s.PrioritiseTransaction hash (Float.ofInt feeDelta * 100.0) feeDelta, true)
  else (s, false)

/-- `CTxMemPool::IsKnownReserveTransaction`: a valid annotation of a pooled hash is refreshed and returned; one of a
hash no longer pooled is cleared with its deltas. -/
def IsKnownReserveTransaction (s : CTxMemPool) (hash : Uint256) :
    CTxMemPool × Option CReserveTransactionDescriptor :=
  match s.mapReserveTransactions.find hash with
  | some d =>
    if d.valid then
      match s.mapTx.find hash with
      | none => (s.ClearPrioritisation hash, none)
      | some e =>
        let d' := { d with ptx := e.tx }
        ({ s with mapReserveTransactions := s.mapReserveTransactions.insert hash d' }, some d')
    else (s, none)
  | none => (s, none)

/-! ## Removal -/

/-- `removeAddressIndex` and `removeSpentIndex`: erase the records listed for `txhash`, then the list. -/
def eraseInserted {K V : Type} [DecidableEq K] (records : StdMap K V) (inserted : StdMap Uint256 (List K))
    (txhash : Uint256) : StdMap K V × StdMap Uint256 (List K) :=
  match inserted.find txhash with
  | some keys => (records.eraseAll keys, inserted.erase txhash)
  | none => (records, inserted)

/-- `CTxMemPool::removeAddressIndex`. -/
def removeAddressIndex (s : CTxMemPool) (txhash : Uint256) : CTxMemPool :=
  let r := eraseInserted s.mapAddress s.mapAddressInserted txhash
  { s with mapAddress := r.1, mapAddressInserted := r.2 }

/-- `CTxMemPool::removeSpentIndex`. -/
def removeSpentIndex (s : CTxMemPool) (txhash : Uint256) : CTxMemPool :=
  let r := eraseInserted s.mapSpent s.mapSpentInserted txhash
  { s with mapSpent := r.1, mapSpentInserted := r.2 }

/-- The hashes `remove` queues for the transaction `hash` with `nOut` outputs: for each output in turn, the spender
`mapNextTx` records, if any. -/
def spenders (s : CTxMemPool) (hash : Uint256) (nOut : Nat) : List Uint256 :=
  (List.range nOut).filterMap (fun i => (s.mapNextTx.find ⟨hash, i⟩).map (·.ptx.hash))

/-- The bookkeeping of `remove` for one pooled entry `e` of hash `hash`, from `mapRecentlyAddedTx.erase` to
`ClearPrioritisation`. -/
def eraseEntry (s : CTxMemPool) (hash : Uint256) (e : CTxMemPoolEntry) : CTxMemPool :=
  let s : CTxMemPool := { s with
    mapRecentlyAddedTx := s.mapRecentlyAddedTx.erase hash
    mapNextTx := s.mapNextTx.eraseAll e.tx.prevouts
    mapSproutNullifiers := s.mapSproutNullifiers.eraseAll e.tx.sproutNullifiers
    mapSaplingNullifiers := s.mapSaplingNullifiers.eraseAll e.tx.saplingNullifiers
    totalTxSize := s.totalTxSize - e.nTxSize
    cachedInnerUsage := s.cachedInnerUsage - e.nUsageSize
    mapTx := s.mapTx.erase hash
    nTransactionsUpdated := s.nTransactionsUpdated + 1 }
  let s := if s.fAddressIndex then s.removeAddressIndex hash else s
  let s := if s.fSpentIndex then s.removeSpentIndex hash else s
  s.ClearPrioritisation e.tx.hash

/-- `eraseEntry` field by field: the three calls at its end touch disjoint members. -/
theorem eraseEntry_eq (s : CTxMemPool) (hash : Uint256) (e : CTxMemPoolEntry) :
    s.eraseEntry hash e =
      { s with
        mapRecentlyAddedTx := s.mapRecentlyAddedTx.erase hash
        mapNextTx := s.mapNextTx.eraseAll e.tx.prevouts
        mapSproutNullifiers := s.mapSproutNullifiers.eraseAll e.tx.sproutNullifiers
        mapSaplingNullifiers := s.mapSaplingNullifiers.eraseAll e.tx.saplingNullifiers
        totalTxSize := s.totalTxSize - e.nTxSize
        cachedInnerUsage := s.cachedInnerUsage - e.nUsageSize
        mapTx := s.mapTx.erase hash
        nTransactionsUpdated := s.nTransactionsUpdated + 1
        mapAddress := if s.fAddressIndex then (eraseInserted s.mapAddress s.mapAddressInserted hash).1 else s.mapAddress
        mapAddressInserted :=
          if s.fAddressIndex then (eraseInserted s.mapAddress s.mapAddressInserted hash).2 else s.mapAddressInserted
        mapSpent := if s.fSpentIndex then (eraseInserted s.mapSpent s.mapSpentInserted hash).1 else s.mapSpent
        mapSpentInserted :=
          if s.fSpentIndex then (eraseInserted s.mapSpent s.mapSpentInserted hash).2 else s.mapSpentInserted
        mapDeltas := s.mapDeltas.erase e.tx.hash
        mapReserveTransactions := s.mapReserveTransactions.erase e.tx.hash } := by
  unfold eraseEntry removeAddressIndex removeSpentIndex ClearPrioritisation
  dsimp only
  split_ifs <;> rfl

@[simp] theorem eraseEntry_mapTx (s : CTxMemPool) (hash : Uint256) (e : CTxMemPoolEntry) :
    (s.eraseEntry hash e).mapTx = s.mapTx.erase hash := by
  rw [eraseEntry_eq]

set_option linter.unusedVariables false in
/-- The `while (!txToRemove.empty())` loop of `CTxMemPool::remove`: pop a hash; skip it unless pooled; otherwise, when
recursive, queue the spenders of its outputs, then erase it and append its transaction to `removed`. It ends because
each round either shortens the queue or erases a pooled entry. -/
def removeLoop (fRecursive : Bool) (s : CTxMemPool) (txToRemove : List Uint256) (removed : List CTransaction) :
    CTxMemPool × List CTransaction :=
  match txToRemove with
  | [] => (s, removed)
  | hash :: rest =>
    match hf : s.mapTx.find hash with
    | none => removeLoop fRecursive s rest removed
    | some e =>
      let children := if fRecursive then s.spenders hash e.tx.vout.length else []
      removeLoop fRecursive (s.eraseEntry hash e) (rest ++ children) (removed ++ [e.tx])
termination_by (s.mapTx.entries.length, txToRemove.length)
decreasing_by
  · exact Prod.Lex.right _ (by simp)
  · exact Prod.Lex.left _ _ (by rw [eraseEntry_mapTx]; exact TxSet.length_erase_lt hf)

/-- `CTxMemPool::remove(origTx, removed, fRecursive)`. When recursive and `origTx` is not pooled, its pooled spenders
are queued after it. -/
def remove (s : CTxMemPool) (origTx : CTransaction) (removed : List CTransaction) (fRecursive : Bool) :
    CTxMemPool × List CTransaction :=
  let txToRemove := origTx.hash ::
    (if fRecursive && !s.mapTx.count origTx.hash then s.spenders origTx.hash origTx.vout.length else [])
  s.removeLoop fRecursive txToRemove removed

/-- `CTxMemPool::clear`: `mapTx` and `mapNextTx` are emptied and the totals reset; no other map is touched, so the
pointers of the nullifier maps and of `mapRecentlyAddedTx` are left naming destroyed entries. -/
def clear (s : CTxMemPool) : CTxMemPool :=
  { s with
    mapTx := .empty
    mapNextTx := .empty
    totalTxSize := 0
    cachedInnerUsage := 0
    nTransactionsUpdated := s.nTransactionsUpdated + 1 }

/-! ## Queries -/

/-- `CTxMemPool::AddTransactionsUpdated`. -/
def AddTransactionsUpdated (s : CTxMemPool) (n : UInt32) : CTxMemPool :=
  { s with nTransactionsUpdated := s.nTransactionsUpdated + n }

/-- `CTxMemPool::lookup`. -/
def lookup (s : CTxMemPool) (hash : Uint256) : Option CTransaction := (s.mapTx.find hash).map (·.tx)

/-- `CTxMemPool::exists`. -/
def «exists» (s : CTxMemPool) (hash : Uint256) : Bool := s.mapTx.count hash

/-- `CTxMemPool::queryHashes(vtxid)`: the hashes of the pooled transactions, in `mapTx` order. -/
def queryHashes (s : CTxMemPool) : List Uint256 := s.mapTx.entries.map (·.tx.hash)

/-- `CTxMemPool::HasNoInputsOf(tx)`: no input of `tx` spends an output of a pooled transaction. -/
def HasNoInputsOf (s : CTxMemPool) (tx : CTransaction) : Bool := tx.vin.all fun input => !s.exists input.prevout.hash

/-- `CTxMemPool::GetTransactionsUpdated()`. -/
def GetTransactionsUpdated (s : CTxMemPool) : UInt32 := s.nTransactionsUpdated

/-- `CTxMemPool::nullifierExists`. -/
def nullifierExists (s : CTxMemPool) (nullifier : Uint256) : ShieldedType → Bool
  | .SPROUT => s.mapSproutNullifiers.contains nullifier
  | .SAPLING => s.mapSaplingNullifiers.contains nullifier

/-- `CCoinsViewMemPool::GetNullifier`, over a base view's answer. -/
def GetNullifier (s : CTxMemPool) (baseGetNullifier : Uint256 → ShieldedType → Bool) (nf : Uint256)
    (type : ShieldedType) : Bool :=
  s.nullifierExists nf type || baseGetNullifier nf type

/-- `CTxMemPool::NotifyRecentlyAdded`: the transactions delivered to the wallets, and the drained pool. The sequence
number is copied only on regtest. The source copies each transaction through its pointer; after `clear()` that reads a
destroyed entry, where the model delivers the transaction that was pooled. -/
def NotifyRecentlyAdded (s : CTxMemPool) (regtest : Bool) : List CTransaction × CTxMemPool :=
  (s.mapRecentlyAddedTx.entries.map Prod.snd,
    { s with
      mapRecentlyAddedTx := .empty
      nNotifiedSequence := if regtest then s.nRecentlyAddedSequence else s.nNotifiedSequence })

/-- `CTxMemPool::IsFullyNotified()`: asserts regtest mode (`none` when the assertion fails), then compares the two
sequence numbers. -/
def IsFullyNotified (s : CTxMemPool) (regtest : Bool) : Option Bool :=
  if regtest then some (s.nRecentlyAddedSequence == s.nNotifiedSequence) else none

end CTxMemPool

end VerusCoin
