import VerusCoin.Lemmas.RemoveAll
import VerusCoin.Theorems.Remove
import VerusCoin.Theorems.Indexes

/-!
# Anchors, expiry and branch ids

`removeWithAnchor`, `removeExpired` and `removeWithoutBranchId` collect the pooled transactions a test selects and
remove each recursively. In a pool satisfying `PoolInv`, and so in every reachable pool, each erases exactly the union
of `D(T)` over the selected `T` (`removeAll_filter_spec`).

The test of `removeExpired` is parenthesised as `IsExpiredTx(tx, h) || (symbol empty && tip && interest) < 0`: the
comparison applies to a `bool`, which is never negative, so the interest check never selects a transaction
(`expired_eq`).
-/

namespace VerusCoin

open CTxMemPool

/-! ## `removeWithAnchor` and `removeWithoutBranchId` -/

/-- The interest term of the test is `false < 0` or `true < 0` on a `bool`: the test is `IsExpiredTx` alone. -/
@[simp]
theorem expired_eq (ctx : ExpiryContext) (nBlockHeight : UInt32) (tx : CTransaction) :
    expired ctx nBlockHeight tx = ctx.IsExpiredTx tx nBlockHeight := by
  simp only [expired]
  split <;> simp

/-- In a pool satisfying `PoolInv`, `removeExpired(h)` erases exactly the union of `D(T)` over the pooled `T` with
`IsExpiredTx(T, h)`, with all their index entries; every other pooled transaction keeps its entries and none left is
expired at `h`. -/
theorem removeExpired_erases_expired (ctx : ExpiryContext) (s : CTxMemPool) (hinv : s.PoolInv)
    (nBlockHeight : UInt32) :
    ∃ ds, ds.Nodup ∧ (∀ c, c ∈ ds ↔ ∃ T, s.Pooled T ∧ ctx.IsExpiredTx T nBlockHeight = true ∧ s.Descendant T c) ∧
      ErasedExactly s ds (s.removeExpired ctx nBlockHeight) ∧ KeepsOthers s ds (s.removeExpired ctx nBlockHeight) ∧
      ∀ T, (s.removeExpired ctx nBlockHeight).Pooled T → ctx.IsExpiredTx T nBlockHeight = false := by
  simp only [removeExpired, expired_eq]
  exact removeAll_filter_tx_spec hinv (ctx.IsExpiredTx · nBlockHeight)

/-- The chain with an empty symbol at a tip of height `100` and median time past `5000`: no transaction has expired
by height, and the interest check fails (`-1`) for every transaction. -/
def interestCtx : ExpiryContext := ⟨fun _ _ => false, fun _ _ _ _ => -1, true, some (100, 5000)⟩

/-- The reachable pool holding `sampleTx` satisfies the closure invariant and the output-index condition, the symbol
is empty, the tip exists and `komodo_validate_interest(sampleTx, 101, 5777, 0) < 0`; yet `removeExpired(200)` keeps
`sampleTx`. -/
theorem removeExpired_keeps_failed_interest :
    Op.Run (CTxMemPool.empty false false) [.addUnchecked 10 sampleEntry]
        ((CTxMemPool.empty false false).addUnchecked 10 sampleEntry) ∧
      ((CTxMemPool.empty false false).addUnchecked 10 sampleEntry).ClosureInv ∧
      ((CTxMemPool.empty false false).addUnchecked 10 sampleEntry).OutputsExist ∧
      interestCtx.assetchainsSymbolEmpty = true ∧ interestCtx.tip = some (100, 5000) ∧
      interestCtx.komodo_validate_interest sampleTx (100 + 1) (5000 + 777) 0 < 0 ∧
      (((CTxMemPool.empty false false).addUnchecked 10 sampleEntry).removeExpired interestCtx 200).Pooled sampleTx := by
  refine ⟨run_add_sample, (PoolInv.of_reachable ⟨false, false, _, run_add_sample⟩).closure, ?_, rfl, rfl,
    by decide, ?_⟩
  · intro e he p hp n hn
    obtain rfl : e = sampleEntry := List.mem_singleton.1 he
    obtain rfl : p = sampleEntry := List.mem_singleton.1 hp
    simp [sampleEntry, sampleTx, CTransaction.prevouts, CTxMemPoolEntry.GetHash] at hn
  · rw [removeExpired, removeAll_filter_of_none fun _ _ => by rw [expired_eq]; rfl]
    rfl

/-- `removeExpired(200)` under `interestCtx` on the reachable pool holding `parentTx` and its child. -/
theorem removeExpired_familyPool : familyPool.PoolInv ∧
    ∃ ds, ds.Nodup ∧
      (∀ c, c ∈ ds ↔ ∃ T, familyPool.Pooled T ∧ interestCtx.IsExpiredTx T 200 = true ∧ familyPool.Descendant T c) ∧
      ErasedExactly familyPool ds (familyPool.removeExpired interestCtx 200) ∧
      KeepsOthers familyPool ds (familyPool.removeExpired interestCtx 200) ∧
      ∀ T, (familyPool.removeExpired interestCtx 200).Pooled T → interestCtx.IsExpiredTx T 200 = false :=
  have hinv : familyPool.PoolInv := PoolInv.of_reachable ⟨false, false, _, run_familyPool⟩
  ⟨hinv, removeExpired_erases_expired interestCtx familyPool hinv 200⟩

end VerusCoin
