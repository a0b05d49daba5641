import VerusCoin.PruneSpent
import VerusCoin.Run

/-!
# The address and spent indexes (`txmempool.cpp`)

With `-addressindex` on, `AcceptToMemoryPool` calls `addAddressIndex(entry, view)` once it has pooled an entry: for
each input of a transaction that is not a coinbase, whose spent output has a script of known type, it inserts a
spending record under the key (type, address, txhash, input index, 1); for each output of known type, a receiving
record under (type, address, txhash, output index, 0); then it lists the keys under the hash in `mapAddressInserted`.
With `-spentindex` on, `addSpentIndex(entry, view)` inserts, for each input, the spender of its outpoint, and lists
the outpoints in `mapSpentInserted`. Both insert with `std::map::insert`, which keeps the value of a key already
present. `remove` purges both indexes through the lists (`eraseEntry`, in `Pool.lean`). `getAddressIndex` scans
`mapAddress` from the `lower_bound` of an address and type; `getSpentIndex` finds one outpoint.

`view.GetOutputFor`, `CScript::GetType`, `CScript::AddressHash` and the value of `CScript::UNKNOWN` are not in this
part of the source: they are the fields of an `IndexContext`. The two-argument `CMempoolAddressDelta(time, amount)`
and `CMempoolAddressDeltaKey(type, address)` (`addressindex.h`) leave the other fields null: hash `0`, index `0`,
`spending` false.
-/

namespace VerusCoin

/-- What the index insertions read outside the pool: the output an input spends in the caller's coins view, and the
type and address hash of a script. -/
structure IndexContext where
  GetOutputFor : CTxIn → CTxOut
  GetType : List UInt8 → Nat
  AddressHash : List UInt8 → Nat
  UNKNOWN : Nat

namespace CTxMemPool

/-- The records of the first loop of `addAddressIndex`: none for a coinbase; for input `j` whose spent output has a
script of known type, the spent value negated under (type, address, txhash, `j`, 1), with the outpoint spent. -/
def spendingAddressRecords (ctx : IndexContext) (entry : CTxMemPoolEntry) :
    List (CMempoolAddressDeltaKey × CMempoolAddressDelta) :=
  if entry.tx.isCoinBase then []
  else
    entry.tx.vin.enum.filterMap fun (j, input) =>
      let prevout := ctx.GetOutputFor input
      let type := ctx.GetType prevout.scriptPubKey
      if type = ctx.UNKNOWN then none
      else some (⟨type, ctx.AddressHash prevout.scriptPubKey, entry.tx.hash, j, true⟩,
        ⟨entry.nTime, prevout.nValue * -1, input.prevout.hash, input.prevout.n⟩)

/-- The records of the second loop of `addAddressIndex`: for output `j` with a script of known type, its value under
(type, address, txhash, `j`, 0). -/
def receivingAddressRecords (ctx : IndexContext) (entry : CTxMemPoolEntry) :
    List (CMempoolAddressDeltaKey × CMempoolAddressDelta) :=
  entry.tx.vout.enum.filterMap fun (j, out) =>
    let type := ctx.GetType out.scriptPubKey
    if type = ctx.UNKNOWN then none
    else some (⟨type, ctx.AddressHash out.scriptPubKey, entry.tx.hash, j, false⟩, ⟨entry.nTime, out.nValue, 0, 0⟩)

/-- `CTxMemPool::addAddressIndex(entry, view)`. -/
def addAddressIndex (s : CTxMemPool) (entry : CTxMemPoolEntry) (ctx : IndexContext) : CTxMemPool :=
  let records := spendingAddressRecords ctx entry ++ receivingAddressRecords ctx entry
  { s with
    mapAddress := s.mapAddress.insertPairs records
    mapAddressInserted := s.mapAddressInserted.insertPair entry.tx.hash (records.map Prod.fst) }

/-- The scan of `getAddressIndex` for one `(address, type)`: from
`mapAddress.lower_bound(CMempoolAddressDeltaKey(type, address))` while the key has that address and type. -/
def addressScan (s : CTxMemPool) (a : Nat × Nat) : List (CMempoolAddressDeltaKey × CMempoolAddressDelta) :=
  (s.mapAddress.lowerBound ⟨a.2, a.1, 0, 0, false⟩).takeWhile fun p => p.1.addressBytes = a.1 ∧ p.1.type = a.2

/-- `CTxMemPool::getAddressIndex(addresses, results)`: the scans of the addresses in turn, pushed onto `results`; it
always returns `true`. -/
def getAddressIndex (s : CTxMemPool) (addresses : List (Nat × Nat))
    (results : List (CMempoolAddressDeltaKey × CMempoolAddressDelta)) :
    List (CMempoolAddressDeltaKey × CMempoolAddressDelta) :=
  results ++ addresses.flatMap s.addressScan

/-- The records of `addSpentIndex`: input `j` spends the outpoint of the key, as the value records with the spent
output's value, script type and address; the height is `-1`. -/
def spentRecords (ctx : IndexContext) (entry : CTxMemPoolEntry) : List (CSpentIndexKey × CSpentIndexValue) :=
  entry.tx.vin.enum.map fun (j, input) =>
    let prevout := ctx.GetOutputFor input
    (⟨input.prevout.hash, input.prevout.n⟩,
      ⟨entry.tx.hash, j, -1, prevout.nValue, ctx.GetType prevout.scriptPubKey, ctx.AddressHash prevout.scriptPubKey⟩)

/-- `CTxMemPool::addSpentIndex(entry, view)`. -/
def addSpentIndex (s : CTxMemPool) (entry : CTxMemPoolEntry) (ctx : IndexContext) : CTxMemPool :=
  let records := spentRecords ctx entry
  { s with
    mapSpent := s.mapSpent.insertPairs records
    mapSpentInserted := s.mapSpentInserted.insertPair entry.tx.hash (records.map Prod.fst) }

/-- `CTxMemPool::getSpentIndex(key, value)`: the record of `key`, if any. -/
def getSpentIndex (s : CTxMemPool) (key : CSpentIndexKey) : Option CSpentIndexValue := s.mapSpent.find key

end CTxMemPool

/-- A call on a pool kept with its auxiliary indexes: a pool call, or one of the index insertions `AcceptToMemoryPool`
makes once it has pooled an entry. -/
inductive IndexOp where
  | call (op : Op)
  | addAddressIndex (entry : CTxMemPoolEntry) (ctx : IndexContext)
  | addSpentIndex (entry : CTxMemPoolEntry) (ctx : IndexContext)

namespace IndexOp

/-- The new state after a call; `none` when a pool call aborts. -/
def apply (s : CTxMemPool) : IndexOp → Option CTxMemPool
  | call op => op.apply s
  | addAddressIndex entry ctx => some (s.addAddressIndex entry ctx)
  | addSpentIndex entry ctx => some (s.addSpentIndex entry ctx)

/-- What the callers guarantee: a pool call is allowed; an index insertion is made with its index on, for an entry
pooled under its hash and not yet in that index. -/
def Allowed (s : CTxMemPool) : IndexOp → Prop
  | call op => op.Allowed s
  | addAddressIndex entry _ =>
    s.fAddressIndex = true ∧ s.mapTx.find entry.GetHash = some entry ∧ s.mapAddressInserted.find entry.GetHash = none
  | addSpentIndex entry _ =>
    s.fSpentIndex = true ∧ s.mapTx.find entry.GetHash = some entry ∧ s.mapSpentInserted.find entry.GetHash = none

/-- A run: the calls in order, each allowed in the state it meets and none aborting, from `s` to `s'`. -/
def Run : CTxMemPool → List IndexOp → CTxMemPool → Prop
  | s, [], s' => s' = s
  | s, op :: ops, s' => op.Allowed s ∧ ∃ s₁, op.apply s = some s₁ ∧ Run s₁ ops s'

/-- An invariant that every allowed call of some kind preserves holds along every run of calls of that kind. -/
theorem Run.preserves_of {P : CTxMemPool → Prop} {Q : IndexOp → Prop}
    (hstep : ∀ s (op : IndexOp) s', P s → Q op → op.Allowed s → op.apply s = some s' → P s') :
    ∀ {s ops s'}, Run s ops s' → (∀ op ∈ ops, Q op) → P s → P s'
  | _, [], _, h, _, hP => h ▸ hP
  | _, _ :: _, _, ⟨ha, _, happ, hrun⟩, hQ, hP =>
    Run.preserves_of hstep hrun (fun op hop => hQ op (List.mem_cons_of_mem _ hop))
      (hstep _ _ _ hP (hQ _ (List.mem_cons_self _ _)) ha happ)

end IndexOp

end VerusCoin
