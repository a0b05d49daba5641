import VerusCoin.Lemmas.StaleEntries

/-!
# The spend and nullifier indexes along every run

The closure invariant of the design holds in every pool a run of allowed calls reaches from a fresh pool. The
nullifier indexes and `mapRecentlyAddedTx` are not exact in every such pool: `clear()` empties `mapTx` and
`mapNextTx` only, so a nullifier of a cleared transaction still reads as spent in the pool and the cleared transaction
is still delivered to the wallets, against `checkNullifiers`, which asserts that every nullifier entry names a pooled
transaction. Along runs that make no `clear()` call they are exact.
-/

namespace VerusCoin

open CTxMemPool

/-- Every pool reachable from a fresh one by allowed calls has complete and exact spend and nullifier indexes:
(a) each input of a pooled transaction that is not a coin import is recorded with its position, (b) each
`mapNextTx` entry names a pooled transaction and the input that spends its key, (c) each nullifier of a pooled
transaction is mapped to it. -/
theorem reachable_spend_index_closure {fA fS : Bool} {ops : List Op} {s : CTxMemPool}
    (h : Op.Run (CTxMemPool.empty fA fS) ops s) : s.ClosureInv :=
  (PoolInv.of_reachable ⟨fA, fS, ops, h⟩).closure

/-- A transaction spending outpoint `(1, 0)` and revealing the Sprout nullifier `7`. -/
def sampleTx : CTransaction := ⟨10, [⟨⟨1, 0⟩⟩], [⟨5, []⟩], [⟨3, [7], []⟩], [], false, false⟩

/-- A pool entry for `sampleTx`. -/
def sampleEntry : CTxMemPoolEntry := ⟨sampleTx, 1, 250, 250, 300, 0, 0.0, 1, true, false, false, 0⟩

theorem run_add_sample : Op.Run (CTxMemPool.empty false false) [.addUnchecked 10 sampleEntry]
    ((CTxMemPool.empty false false).addUnchecked 10 sampleEntry) := by
  refine ⟨⟨rfl, rfl, by decide, ?_, ?_, ?_⟩, _, rfl, rfl⟩ <;> simp [CTxMemPool.empty, TxSet.empty]

theorem closure_after_sample_add :
    Op.Run (CTxMemPool.empty false false) [.addUnchecked 10 sampleEntry]
        ((CTxMemPool.empty false false).addUnchecked 10 sampleEntry) ∧
      ((CTxMemPool.empty false false).addUnchecked 10 sampleEntry).ClosureInv :=
  ⟨run_add_sample, reachable_spend_index_closure run_add_sample⟩

/-- After `addUnchecked(sampleTx)` and `clear()`, a run of allowed calls, no transaction is pooled, yet the pool
reports the Sprout nullifier `7` as spent and `NotifyRecentlyAdded` delivers `sampleTx`. -/
theorem clear_leaves_stale_entries :
    Op.Run (CTxMemPool.empty false false) [.addUnchecked 10 sampleEntry, .clear]
        ((CTxMemPool.empty false false).addUnchecked 10 sampleEntry).clear ∧
      ((CTxMemPool.empty false false).addUnchecked 10 sampleEntry).clear.mapTx.entries = [] ∧
      ((CTxMemPool.empty false false).addUnchecked 10 sampleEntry).clear.nullifierExists 7 .SPROUT = true ∧
      (((CTxMemPool.empty false false).addUnchecked 10 sampleEntry).clear.NotifyRecentlyAdded false).1 = [sampleTx] :=
  ⟨⟨run_add_sample.1, _, rfl, ⟨trivial, _, rfl, rfl⟩⟩, rfl, by decide, by decide⟩

/-- In every pool a run without `clear()` reaches from a fresh one, the secondary indexes hold no stale entry:
`nullifierExists` is true exactly when a pooled transaction reveals the nullifier, every key of `mapRecentlyAddedTx`
is the hash of a pooled transaction, and `NotifyRecentlyAdded` delivers pooled transactions only. -/
theorem run_without_clear_no_stale_entries {fA fS : Bool} {ops : List Op} {s : CTxMemPool}
    (h : Op.Run (CTxMemPool.empty fA fS) ops s) (hclear : ∀ op ∈ ops, op ≠ .clear) :
    (∀ nf, (s.nullifierExists nf .SPROUT = true ↔ ∃ tx, s.Pooled tx ∧ nf ∈ tx.sproutNullifiers) ∧
        (s.nullifierExists nf .SAPLING = true ↔ ∃ tx, s.Pooled tx ∧ nf ∈ tx.saplingNullifiers)) ∧
      s.RecentlyAddedSound ∧ ∀ regtest, ∀ tx ∈ (s.NotifyRecentlyAdded regtest).1, s.Pooled tx := by
  have hr := RecentlyAddedPooled.of_run h hclear (RecentlyAddedPooled.empty fA fS)
  exact ⟨nullifierExists_iff (PoolInv.of_reachable ⟨fA, fS, ops, h⟩)
    (NullifiersSound.of_run h hclear (NullifiersSound.empty fA fS)), hr.sound, hr.notify_pooled⟩

/-- The run of `addUnchecked(sampleTx)` alone makes no `clear()` call, and the pool it reaches holds no stale
entry. -/
theorem sample_no_stale_entries : (∀ op ∈ [Op.addUnchecked 10 sampleEntry], op ≠ .clear) ∧
    (∀ nf, (((CTxMemPool.empty false false).addUnchecked 10 sampleEntry).nullifierExists nf .SPROUT = true ↔
          ∃ tx, ((CTxMemPool.empty false false).addUnchecked 10 sampleEntry).Pooled tx ∧ nf ∈ tx.sproutNullifiers) ∧
        (((CTxMemPool.empty false false).addUnchecked 10 sampleEntry).nullifierExists nf .SAPLING = true ↔
          ∃ tx, ((CTxMemPool.empty false false).addUnchecked 10 sampleEntry).Pooled tx ∧ nf ∈ tx.saplingNullifiers)) ∧
      ((CTxMemPool.empty false false).addUnchecked 10 sampleEntry).RecentlyAddedSound ∧
      ∀ regtest, ∀ tx ∈ (((CTxMemPool.empty false false).addUnchecked 10 sampleEntry).NotifyRecentlyAdded regtest).1,
        ((CTxMemPool.empty false false).addUnchecked 10 sampleEntry).Pooled tx :=
  ⟨by simp, run_without_clear_no_stale_entries run_add_sample (by simp)⟩

end VerusCoin
