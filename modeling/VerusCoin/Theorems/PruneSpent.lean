import VerusCoin.Lemmas.PruneSpent
import VerusCoin.Theorems.Remove

/-!
# What `pruneSpent` marks spent

In every reachable pool `mapNextTx` is in key order, so the scan of `pruneSpent(h, coins)` visits exactly the keys of
hash `h`; and the pool invariant holds, so those keys are the outpoints of hash `h` that pooled transactions other
than coin imports spend (no spend-index entry names a coin import).
-/

namespace VerusCoin

open CTxMemPool

/-- For every reachable pool, every hash `h` and every coins: the scan from `lower_bound((h, 0))` visits exactly the keys of hash `h`; output
`n` is available afterwards exactly when it was and no pooled transaction other than a coin import spends `(h, n)`;
every other available output keeps its value; and the coinbase flag and the height are unchanged. -/
theorem pruneSpent_spends_pool_inputs (s : CTxMemPool) (hs : Op.Reachable s) (h : Uint256) (coins : CCoins) :
    (s.mapNextTx.lowerBound ⟨h, 0⟩).takeWhile (fun p => p.1.hash = h) =
        s.mapNextTx.entries.filter (fun p => p.1.hash = h) ∧
      (∀ n, (s.pruneSpent h coins).IsAvailable n = true ↔
        coins.IsAvailable n = true ∧ ¬ ∃ T, s.Pooled T ∧ T.isCoinImport = false ∧ ⟨h, n⟩ ∈ T.prevouts) ∧
      (∀ n, coins.IsAvailable n = true → (¬ ∃ T, s.Pooled T ∧ T.isCoinImport = false ∧ ⟨h, n⟩ ∈ T.prevouts) →
        (s.pruneSpent h coins).vout[n]? = coins.vout[n]?) ∧
      (s.pruneSpent h coins).fCoinBase = coins.fCoinBase ∧ (s.pruneSpent h coins).nHeight = coins.nHeight := by
  have hinv := PoolInv.of_reachable hs
  have hord := nextTxOrdered_of_reachable hs
  have hkeys : ∀ n, (∀ p ∈ s.mapNextTx.entries.filter (fun p => p.1.hash = h), p.1.n ≠ n) ↔
      ¬ ∃ T, s.Pooled T ∧ T.isCoinImport = false ∧ ⟨h, n⟩ ∈ T.prevouts := fun n => by
    rw [← mem_nextTx_keys_iff hinv]
    simp only [List.mem_filter, decide_eq_true_eq, not_exists]
    refine ⟨fun hk v hv => hk _ ⟨hv, rfl⟩ rfl, fun hk p ⟨hp, hh⟩ hn => hk p.2 ?_⟩
    obtain ⟨⟨_, _⟩, _⟩ := p
    simp only at hh hn
    subst hh hn
    exact hp
  rw [pruneSpent_eq hord]
  exact ⟨scan_eq_filter hord, fun n => by rw [CCoins.isAvailable_foldl_spend, hkeys],
    fun n hn hk => CCoins.getElem?_vout_foldl_spend _ _ n hn ((hkeys n).2 hk), CCoins.foldl_spend_fields _ _⟩

/-- On the reachable pool holding `parentTx` and its child, `pruneSpent(20, ·)` spends output 0 of `parentTx`'s coins,
which `childTx` spends, and keeps output 1. -/
theorem pruneSpent_familyPool :
    Op.Reachable familyPool ∧
      ((familyPool.mapNextTx.lowerBound ⟨20, 0⟩).takeWhile (fun p => p.1.hash = 20) =
          familyPool.mapNextTx.entries.filter (fun p => p.1.hash = 20) ∧
        (∀ n, (familyPool.pruneSpent 20 ⟨false, [⟨5, []⟩, ⟨7, []⟩], 1⟩).IsAvailable n = true ↔
          (⟨false, [⟨5, []⟩, ⟨7, []⟩], 1⟩ : CCoins).IsAvailable n = true ∧
            ¬ ∃ T, familyPool.Pooled T ∧ T.isCoinImport = false ∧ ⟨20, n⟩ ∈ T.prevouts) ∧
        (∀ n, (⟨false, [⟨5, []⟩, ⟨7, []⟩], 1⟩ : CCoins).IsAvailable n = true →
          (¬ ∃ T, familyPool.Pooled T ∧ T.isCoinImport = false ∧ ⟨20, n⟩ ∈ T.prevouts) →
          (familyPool.pruneSpent 20 ⟨false, [⟨5, []⟩, ⟨7, []⟩], 1⟩).vout[n]? =
            (⟨false, [⟨5, []⟩, ⟨7, []⟩], 1⟩ : CCoins).vout[n]?) ∧
        (familyPool.pruneSpent 20 ⟨false, [⟨5, []⟩, ⟨7, []⟩], 1⟩).fCoinBase = false ∧
        (familyPool.pruneSpent 20 ⟨false, [⟨5, []⟩, ⟨7, []⟩], 1⟩).nHeight = 1) :=
  have hs : Op.Reachable familyPool := ⟨false, false, _, run_familyPool⟩
  ⟨hs, pruneSpent_spends_pool_inputs familyPool hs 20 _⟩

end VerusCoin
