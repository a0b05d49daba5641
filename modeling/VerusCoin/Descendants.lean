import Mathlib.Logic.Relation
import VerusCoin.Invariant

/-!
# Descendants, and what erasing transactions leaves

`D(T)` of the design: the pooled transactions reachable from `T` by steps to a pooled transaction, not a coin import,
that spends an output of the current one. Transactions are identified by their hash, as `mapTx` identifies them: the
walk starts at the pooled transaction of `T`'s hash when there is one, at `T` otherwise. `ErasedExactly` says what a
pool is after some transactions are erased with their index entries, `KeepsOthers` that every other pooled
transaction keeps its own entries.
-/

namespace VerusCoin

namespace CTxMemPool

/-- `c` is a child of `p`: a pooled transaction, not a coin import, that spends an output of `p`. -/
def ChildOf (s : CTxMemPool) (p c : CTransaction) : Prop :=
  s.Pooled c ∧ c.isCoinImport = false ∧ ∃ n < p.vout.length, (⟨p.hash, n⟩ : COutPoint) ∈ c.prevouts

/-- Where a walk from `T` starts: the pooled transaction of `T`'s hash, or `T` when none is pooled. -/
def rootOf (s : CTxMemPool) (T : CTransaction) : CTransaction := (s.lookup T.hash).getD T

/-- `c ∈ D(T)`: `c` is pooled and reached from `T` by steps to children. -/
def Descendant (s : CTxMemPool) (T c : CTransaction) : Prop :=
  s.Pooled c ∧ Relation.ReflTransGen s.ChildOf (s.rootOf T) c

/-- `C` spends an outpoint `tx` spends (coin imports aside: the spend index never records them) or reveals a Sprout or
Sapling nullifier `tx` reveals. -/
def SharesWith (tx C : CTransaction) : Prop :=
  (C.isCoinImport = false ∧ ∃ o ∈ tx.prevouts, o ∈ C.prevouts) ∨ (∃ nf ∈ tx.sproutNullifiers, nf ∈ C.sproutNullifiers) ∨
    ∃ nf ∈ tx.saplingNullifiers, nf ∈ C.saplingNullifiers

/-- A conflict of `tx`: a pooled transaction of another hash that shares an outpoint or a nullifier with `tx`. -/
def ConflictOf (s : CTxMemPool) (tx C : CTransaction) : Prop := s.Pooled C ∧ C.hash ≠ tx.hash ∧ SharesWith tx C

/-- The records `removeAddressIndex` and `removeSpentIndex` erase for the transactions `ds`: the keys listed under
their hashes. -/
def insertedKeys {K : Type} (inserted : StdMap Uint256 (List K)) (ds : List CTransaction) : List K :=
  ds.flatMap (fun tx => (inserted.find tx.hash).getD [])

/-- `s` is `s₀` with the transactions `ds` erased from `mapTx` and every index entry `remove` erases for them: the
spend index at their inputs, the nullifier indexes at their nullifiers, the hash-keyed maps at their hashes, and, when
enabled, the address and spent indexes at their records. -/
structure ErasedExactly (s₀ : CTxMemPool) (ds : List CTransaction) (s : CTxMemPool) : Prop where
  mapTx : s.mapTx.entries = s₀.mapTx.entries.filter (fun e => e.tx ∉ ds)
  mapNextTx : s.mapNextTx = s₀.mapNextTx.eraseAll (ds.flatMap CTransaction.prevouts)
  mapSproutNullifiers :
    s.mapSproutNullifiers = s₀.mapSproutNullifiers.eraseAll (ds.flatMap CTransaction.sproutNullifiers)
  mapSaplingNullifiers :
    s.mapSaplingNullifiers = s₀.mapSaplingNullifiers.eraseAll (ds.flatMap CTransaction.saplingNullifiers)
  mapRecentlyAddedTx : s.mapRecentlyAddedTx = s₀.mapRecentlyAddedTx.eraseAll (ds.map CTransaction.hash)
  mapDeltas : s.mapDeltas = s₀.mapDeltas.eraseAll (ds.map CTransaction.hash)
  mapReserveTransactions : s.mapReserveTransactions = s₀.mapReserveTransactions.eraseAll (ds.map CTransaction.hash)
  mapAddress : s.mapAddress =
    if s₀.fAddressIndex then s₀.mapAddress.eraseAll (insertedKeys s₀.mapAddressInserted ds) else s₀.mapAddress
  mapAddressInserted : s.mapAddressInserted =
    if s₀.fAddressIndex then s₀.mapAddressInserted.eraseAll (ds.map CTransaction.hash) else s₀.mapAddressInserted
  mapSpent : s.mapSpent =
    if s₀.fSpentIndex then s₀.mapSpent.eraseAll (insertedKeys s₀.mapSpentInserted ds) else s₀.mapSpent
  mapSpentInserted : s.mapSpentInserted =
    if s₀.fSpentIndex then s₀.mapSpentInserted.eraseAll (ds.map CTransaction.hash) else s₀.mapSpentInserted

/-- Every transaction pooled in `s₀` and not among `ds` is still pooled in `s`, with the same spend-index and
nullifier entries at its inputs and nullifiers and the same entries at its hash. -/
def KeepsOthers (s₀ : CTxMemPool) (ds : List CTransaction) (s : CTxMemPool) : Prop :=
  ∀ tx, s₀.Pooled tx → tx ∉ ds →
    s.Pooled tx ∧ (∀ o ∈ tx.prevouts, s.mapNextTx.find o = s₀.mapNextTx.find o) ∧
      (∀ nf ∈ tx.sproutNullifiers, s.mapSproutNullifiers.find nf = s₀.mapSproutNullifiers.find nf) ∧
      (∀ nf ∈ tx.saplingNullifiers, s.mapSaplingNullifiers.find nf = s₀.mapSaplingNullifiers.find nf) ∧
      s.mapRecentlyAddedTx.find tx.hash = s₀.mapRecentlyAddedTx.find tx.hash ∧
      s.mapDeltas.find tx.hash = s₀.mapDeltas.find tx.hash ∧
      s.mapReserveTransactions.find tx.hash = s₀.mapReserveTransactions.find tx.hash ∧
      s.mapAddressInserted.find tx.hash = s₀.mapAddressInserted.find tx.hash ∧
      s.mapSpentInserted.find tx.hash = s₀.mapSpentInserted.find tx.hash

/-- The pool after the loop of `remove` has erased the entries `es`, in order. -/
def eraseEntries (s : CTxMemPool) (es : List CTxMemPoolEntry) : CTxMemPool :=
  es.foldl (fun s e => s.eraseEntry e.GetHash e) s

end CTxMemPool

end VerusCoin
