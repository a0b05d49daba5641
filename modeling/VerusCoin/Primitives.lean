import VerusCoin.StdMap

/-!
# Transactions and pool entries

The data the pool reads of a transaction (`primitives/transaction.h`, outside `src/`): its hash, the outpoints its
inputs spend, its outputs, the nullifiers and anchors of its JoinSplits and Sapling spends, and the two predicates
`IsCoinImport()` and `IsCoinBase()`, taken as given. A `uint256` is a natural number: the pool only compares hashes.
-/

namespace VerusCoin

/-- A 256-bit hash; only its identity and its order matter to the pool. -/
abbrev Uint256 := Nat

/-- `COutPoint`: a transaction hash and an output index, ordered lexicographically. -/
structure COutPoint where
  hash : Uint256
  n : Nat
  deriving DecidableEq, Ord, Repr

/-- `CTxIn`: the pool reads only the outpoint an input spends. -/
structure CTxIn where
  prevout : COutPoint
  deriving DecidableEq, Repr

/-- `CTxOut`: a value and a locking script. -/
structure CTxOut where
  nValue : Int
  scriptPubKey : List UInt8
  deriving DecidableEq, Repr

/-- `CTxOut::IsNull()`: a spent (pruned) output carries the value `-1`. -/
def CTxOut.IsNull (o : CTxOut) : Bool := o.nValue = -1

/-- A Sprout JoinSplit: the anchor it proves against and the nullifiers it reveals. -/
structure JSDescription where
  anchor : Uint256
  nullifiers : List Uint256
  commitments : List Uint256
  deriving DecidableEq, Repr

/-- A Sapling spend: its anchor and its nullifier. -/
structure SpendDescription where
  anchor : Uint256
  nullifier : Uint256
  deriving DecidableEq, Repr

/-- `CTransaction`, with `GetHash()`, `IsCoinImport()` and `IsCoinBase()` as given values. -/
structure CTransaction where
  hash : Uint256
  vin : List CTxIn
  vout : List CTxOut
  vJoinSplit : List JSDescription
  vShieldedSpend : List SpendDescription
  isCoinImport : Bool
  isCoinBase : Bool
  deriving DecidableEq, Repr

namespace CTransaction

/-- The outpoints the inputs spend, in input order. -/
def prevouts (tx : CTransaction) : List COutPoint := tx.vin.map (·.prevout)

/-- The Sprout nullifiers, in the order of the nested `BOOST_FOREACH` over `vJoinSplit`. -/
def sproutNullifiers (tx : CTransaction) : List Uint256 := tx.vJoinSplit.flatMap (·.nullifiers)

/-- The Sapling nullifiers, one per spend. -/
def saplingNullifiers (tx : CTransaction) : List Uint256 := tx.vShieldedSpend.map (·.nullifier)

/-- `tx` spends output `n` of a transaction with hash `h`, an output that exists there. -/
def SpendsOutputOf (tx parent : CTransaction) : Prop :=
  ∃ n < parent.vout.length, ⟨parent.hash, n⟩ ∈ tx.prevouts

end CTransaction

/-- `CInPoint`: the spending transaction (the code keeps a pointer to it) and the input position. -/
structure CInPoint where
  ptx : CTransaction
  n : Nat
  deriving DecidableEq, Repr

/-- `CTxMemPoolEntry`: a transaction and the figures fixed when it entered the pool. -/
structure CTxMemPoolEntry where
  tx : CTransaction
  nFee : Int
  nTxSize : UInt64
  nModSize : UInt64
  nUsageSize : UInt64
  nTime : Int
  dPriority : Float
  nHeight : UInt32
  hadNoDependencies : Bool
  spendsCoinbase : Bool
  hasReserve : Bool
  nBranchId : UInt32
  deriving Repr

/-- `CCoins`: the unspent outputs of one transaction in a coins view. -/
structure CCoins where
  fCoinBase : Bool
  vout : List CTxOut
  nHeight : Int
  deriving DecidableEq, Repr

/-- `CCoins::IsAvailable(n)`: output `n` exists and is not spent. -/
def CCoins.IsAvailable (c : CCoins) (n : Nat) : Bool :=
  match c.vout[n]? with
  | some o => !o.IsNull
  | none => false

/-- The part of a `CReserveTransactionDescriptor` the pool reads. -/
structure CReserveTransactionDescriptor where
  ptx : CTransaction
  valid : Bool
  reserveFees : Int
  reserveConversionFees : Int
  nativeConversionFees : Int
  deriving DecidableEq, Repr

/-- `CMempoolAddressDeltaKey` (`addressindex.h`), ordered field by field. -/
structure CMempoolAddressDeltaKey where
  type : Nat
  addressBytes : Nat
  txhash : Uint256
  index : Nat
  spending : Bool
  deriving DecidableEq, Ord, Repr

/-- `CMempoolAddressDelta`. -/
structure CMempoolAddressDelta where
  time : Int
  amount : Int
  prevhash : Uint256
  prevout : Nat
  deriving DecidableEq, Repr

/-- `CSpentIndexKey` (`spentindex.h`): the spent outpoint. -/
structure CSpentIndexKey where
  txid : Uint256
  outputIndex : Nat
  deriving DecidableEq, Ord, Repr

/-- `CSpentIndexValue`. -/
structure CSpentIndexValue where
  txid : Uint256
  inputIndex : Nat
  blockHeight : Int
  satoshis : Int
  addressType : Nat
  addressHash : Nat
  deriving DecidableEq, Repr

end VerusCoin
