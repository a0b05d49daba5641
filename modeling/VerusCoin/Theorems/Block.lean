import VerusCoin.Lemmas.Block
import VerusCoin.Theorems.Conflicts

/-!
# What `removeForBlock` erases

In a pool satisfying `PoolInv` with no stale nullifier entry, for a block whose transactions are identified by their
hashes, overlap pairwise in no outpoint or nullifier, and are no children of pooled transactions outside the block:
`removeForBlock` erases the pooled block transactions and the descendants of their conflicts, and nothing else; the
conflicts list gains the latter, each once, and no block transaction; and the result does not depend on the order of
the block. Every state a run without `clear()` reaches is such a pool.

After `clear()` the nullifier indexes still point at the transactions of the destroyed entries, and `removeConflicts`,
which `removeForBlock` calls for each block transaction, follows them: the source reads freed memory, and the model,
which keeps the named transaction by value, evicts its pooled children although they conflict with nothing in the
block.
-/

namespace VerusCoin

open CTxMemPool

/-- The pool `stalePool`, reached by a run through `clear()`, with the closure invariant and the output-index
condition, and with its Sprout nullifier index still naming `sampleTx`, no longer pooled; and the block of
`nullifierTx` alone, which is not pooled, conflicts with nothing and spends nothing: `removeForBlock` still evicts
`orphanTx`, the child of `sampleTx`, into the conflicts list. -/
theorem removeForBlock_evicts_after_clear :
    Op.Run (CTxMemPool.empty false false) [.addUnchecked 10 sampleEntry, .clear, .addUnchecked 26 (entryOf orphanTx)]
        stalePool ∧
      stalePool.ClosureInv ∧ stalePool.OutputsExist ∧
      stalePool.mapSproutNullifiers.find 7 = some sampleTx ∧ ¬ stalePool.Pooled sampleTx ∧
      ¬ stalePool.Pooled nullifierTx ∧ nullifierTx.prevouts = [] ∧
      ¬ (∃ C, stalePool.ConflictOf nullifierTx C) ∧ stalePool.Pooled orphanTx ∧
      (stalePool.removeForBlock [nullifierTx] []).2 = [orphanTx] ∧
      ¬ (stalePool.removeForBlock [nullifierTx] []).1.Pooled orphanTx := by
  have hrem : stalePool.remove nullifierTx [] false = (stalePool, []) := by
    show stalePool.removeLoop false [27] [] = _
    rw [removeLoop_cons_none false [] [] (rfl : stalePool.mapTx.find 27 = none), removeLoop_nil]
  have hblock : stalePool.removeForBlock [nullifierTx] [] =
      ((stalePool.eraseEntry 26 (entryOf orphanTx)).ClearPrioritisation nullifierTx.hash, [orphanTx]) := by
    show (((stalePool.remove nullifierTx [] false).1.removeConflicts nullifierTx []).1.ClearPrioritisation _,
      ((stalePool.remove nullifierTx [] false).1.removeConflicts nullifierTx []).2) = _
    rw [hrem, stalePool_removeConflicts]
  refine ⟨run_stalePool, (PoolInv.of_reachable ⟨false, false, _, run_stalePool⟩).closure, stalePool_outputsExist,
    stalePool_stale_nullifier.1, stalePool_stale_nullifier.2, fun h => absurd (stalePool_pooled.1 h) (by decide),
    rfl, stalePool_no_conflict, rfl, by rw [hblock], ?_⟩
  rw [hblock]
  show ¬ (stalePool.eraseEntry 26 (entryOf orphanTx)).Pooled orphanTx
  rw [pooled_eraseEntry]
  exact fun h => h.2 rfl

end VerusCoin
