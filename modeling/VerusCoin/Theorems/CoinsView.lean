import VerusCoin.CoinsView
import VerusCoin.Theorems.PruneSpent

/-!
# What the pool's coins view reports as spendable

Whether output `n` of `txid` is still spendable, pending spends included, is asked of the pool's coins view by
`GetCoins(txid, coins)` and then `pruneSpent(txid, coins)`. In every reachable state the answer is exact: for the hash
of a pooled transaction, an output it has, neither spent (null) nor unspendable, that no pooled transaction but a
coin import spends, with the coins at `MEMPOOL_HEIGHT` whatever the base view holds; for any other hash, an output
the base view has available that no pooled transaction but a coin import spends. Over a base view that keeps the
contract of the coins cache, the pool's view keeps the contract of a view: `HaveCoins(txid)` exactly when
`GetCoins(txid)` returns coins, which are pruned only for a pooled transaction with no spendable output.
-/

namespace VerusCoin

namespace CCoins

theorem isNull_setNull (o : CTxOut) : o.SetNull.IsNull = true := rfl

/-- Output `n` of the coins of `tx` is available exactly when `tx` has an output `n` neither null nor unspendable. -/
theorem isAvailable_fromTx (IsUnspendable : List UInt8 → Bool) (tx : CTransaction) (nHeightIn : Int) (n : Nat) :
    (FromTx IsUnspendable tx nHeightIn).IsAvailable n = true ↔
      ∃ o, tx.vout[n]? = some o ∧ o.IsNull = false ∧ IsUnspendable o.scriptPubKey = false := by
  rw [FromTx, ClearUnspendable, isAvailable_cleanup, isAvailable_iff]
  simp only [List.getElem?_map, Option.map_eq_some']
  constructor
  · rintro ⟨_, ⟨o, ho, rfl⟩, hnull⟩
    cases hu : IsUnspendable o.scriptPubKey
    · simp only [hu, Bool.false_eq_true, if_false] at hnull
      exact ⟨o, ho, hnull, hu⟩
    · simp only [hu, if_true, isNull_setNull] at hnull
      cases hnull
  · rintro ⟨o, ho, hnull, hu⟩
    exact ⟨o, ⟨o, ho, by simp only [hu, Bool.false_eq_true, if_false]⟩, hnull⟩

/-- Pruned coins have no output available. -/
theorem isAvailable_of_isPruned {c : CCoins} (h : c.IsPruned = true) (n : Nat) : c.IsAvailable n = false := by
  rw [← Bool.not_eq_true, isAvailable_iff]
  rintro ⟨o, ho, hnull⟩
  rw [IsPruned, List.all_eq_true] at h
  rw [h o (List.getElem?_mem ho)] at hnull
  cases hnull

/-- Coins are pruned exactly when no output is available. -/
theorem isPruned_iff (c : CCoins) : c.IsPruned = true ↔ ∀ n, c.IsAvailable n = false := by
  refine ⟨isAvailable_of_isPruned, fun h => ?_⟩
  rw [IsPruned, List.all_eq_true]
  intro o ho
  obtain ⟨n, hn, rfl⟩ := List.getElem_of_mem ho
  cases hnull : c.vout[n].IsNull
  · have hn' := h n
    rw [← Bool.not_eq_true, isAvailable_iff] at hn'
    exact absurd ⟨_, List.getElem?_eq_getElem hn, hnull⟩ hn'
  · rfl

/-- The coins of `tx` are pruned exactly when every output of `tx` is null or unspendable. -/
theorem isPruned_fromTx (IsUnspendable : List UInt8 → Bool) (tx : CTransaction) (nHeightIn : Int) :
    (FromTx IsUnspendable tx nHeightIn).IsPruned = true ↔
      ∀ o ∈ tx.vout, o.IsNull = true ∨ IsUnspendable o.scriptPubKey = true := by
  rw [isPruned_iff]
  refine ⟨fun h o ho => ?_, fun h n => ?_⟩
  · obtain ⟨n, hn, rfl⟩ := List.getElem_of_mem ho
    cases hnull : tx.vout[n].IsNull
    · cases hu : IsUnspendable tx.vout[n].scriptPubKey
      · have hn' := h n
        rw [← Bool.not_eq_true, isAvailable_fromTx] at hn'
        exact absurd ⟨_, List.getElem?_eq_getElem hn, hnull, hu⟩ hn'
      · exact .inr rfl
    · exact .inl rfl
  · rw [← Bool.not_eq_true, isAvailable_fromTx]
    rintro ⟨o, hon, hnull, hu⟩
    rcases h o (List.getElem?_mem hon) with h' | h'
    · exact Bool.false_ne_true (hnull.symm.trans h')
    · exact Bool.false_ne_true (hu.symm.trans h')

end CCoins

namespace CTxMemPool

variable {s : CTxMemPool}

/-- With the pool invariant and `mapNextTx` in key order, `pruneSpent(h, coins)` leaves output `n` available exactly
when it was and no pooled transaction but a coin import spends `(h, n)`. -/
theorem isAvailable_pruneSpent (hinv : s.PoolInv) (hord : s.mapNextTx.Ordered) (h : Uint256) (coins : CCoins)
    (n : Nat) : (s.pruneSpent h coins).IsAvailable n = true ↔
      coins.IsAvailable n = true ∧ ¬ ∃ T, s.Pooled T ∧ T.isCoinImport = false ∧ ⟨h, n⟩ ∈ T.prevouts := by
  rw [pruneSpent_eq hord, CCoins.isAvailable_foldl_spend, ← mem_nextTx_keys_iff hinv]
  simp only [List.mem_filter, decide_eq_true_eq, not_exists]
  refine and_congr_right fun _ => ⟨fun hk v hv => hk _ ⟨hv, rfl⟩ rfl, fun hk p ⟨hp, hh⟩ hn => hk p.2 ?_⟩
  obtain ⟨⟨_, _⟩, _⟩ := p
  simp only at hh hn
  subst hh hn
  exact hp

theorem getCoins_of_pooled {T : CTransaction} (hT : s.Pooled T) (IsUnspendable : List UInt8 → Bool)
    (baseGetCoins : Uint256 → Option CCoins) :
    s.GetCoins IsUnspendable baseGetCoins T.hash = some (CCoins.FromTx IsUnspendable T MEMPOOL_HEIGHT) := by
  rw [GetCoins, show s.lookup T.hash = some T from hT]

/-- `exists(hash)` and `lookup(hash, tx)` ask the same index. -/
theorem exists_eq_isSome_lookup (txid : Uint256) : s.exists txid = (s.lookup txid).isSome := by
  rw [«exists», TxSet.count, lookup, Option.isSome_map']

theorem getCoins_of_lookup_eq_none {txid : Uint256} (hl : s.lookup txid = none) (IsUnspendable : List UInt8 → Bool)
    (baseGetCoins : Uint256 → Option CCoins) :
    s.GetCoins IsUnspendable baseGetCoins txid = (baseGetCoins txid).filter fun coins => !coins.IsPruned := by
  rw [GetCoins, hl]

end CTxMemPool

open CTxMemPool

/-- In every reachable state, for every base view and every predicate of unspendable scripts, `GetCoins(txid, coins)`
followed by `pruneSpent(txid, coins)` reports output `n` available exactly when it is spendable with pending spends
counted. For the hash of a pooled transaction the pool's coins win: they carry `MEMPOOL_HEIGHT` and the transaction's
coinbase flag, and output `n` is available exactly when the transaction has it, neither null nor unspendable, and no
pooled transaction but a coin import spends it. For a hash not pooled, output `n` is available exactly when the base
view has coins with it available (pruned coins have none) and no pooled transaction but a coin import spends it. -/
theorem getCoins_pruneSpent_available {s : CTxMemPool} (hs : Op.Reachable s) (IsUnspendable : List UInt8 → Bool)
    (baseGetCoins : Uint256 → Option CCoins) :
    (∀ T, s.Pooled T → ∃ coins, s.GetCoins IsUnspendable baseGetCoins T.hash = some coins ∧
      (s.pruneSpent T.hash coins).nHeight = MEMPOOL_HEIGHT ∧ (s.pruneSpent T.hash coins).fCoinBase = T.isCoinBase ∧
      ∀ n, (s.pruneSpent T.hash coins).IsAvailable n = true ↔
        (∃ o, T.vout[n]? = some o ∧ o.IsNull = false ∧ IsUnspendable o.scriptPubKey = false) ∧
          ¬ ∃ T', s.Pooled T' ∧ T'.isCoinImport = false ∧ ⟨T.hash, n⟩ ∈ T'.prevouts) ∧
    ∀ txid, s.lookup txid = none → ∀ n,
      (∃ coins, s.GetCoins IsUnspendable baseGetCoins txid = some coins ∧
          (s.pruneSpent txid coins).IsAvailable n = true) ↔
        (∃ c, baseGetCoins txid = some c ∧ c.IsAvailable n = true) ∧
          ¬ ∃ T', s.Pooled T' ∧ T'.isCoinImport = false ∧ ⟨txid, n⟩ ∈ T'.prevouts := by
  have hinv := PoolInv.of_reachable hs
  have hord := nextTxOrdered_of_reachable hs
  refine ⟨fun T hT => ⟨_, getCoins_of_pooled hT IsUnspendable baseGetCoins, ?_⟩, fun txid hl n => ?_⟩
  · obtain ⟨hcb, hh⟩ := CCoins.foldl_spend_fields (s.mapNextTx.entries.filter fun p => p.1.hash = T.hash)
      (CCoins.FromTx IsUnspendable T MEMPOOL_HEIGHT)
    rw [pruneSpent_eq hord]
    refine ⟨hh, hcb, fun n => ?_⟩
    rw [← pruneSpent_eq hord, isAvailable_pruneSpent hinv hord, CCoins.isAvailable_fromTx]
  · rw [getCoins_of_lookup_eq_none hl]
    cases hb : baseGetCoins txid with
    | none => simp
    | some c =>
      -- the base's coins pass exactly when not pruned, and pruned coins have no output available
      cases hp : c.IsPruned
      · simp only [Option.filter, hp, Bool.not_false, if_true, Option.some.injEq, exists_eq_left',
          isAvailable_pruneSpent hinv hord]
      · have := CCoins.isAvailable_of_isPruned hp n
        simp [Option.filter, hp, this]

/-- `familyPool`, over a base view holding nothing and with no unspendable script. -/
theorem getCoins_pruneSpent_available_familyPool : Op.Reachable familyPool ∧
    (∀ T, familyPool.Pooled T → ∃ coins, familyPool.GetCoins (fun _ => false) (fun _ => none) T.hash = some coins ∧
      (familyPool.pruneSpent T.hash coins).nHeight = MEMPOOL_HEIGHT ∧
      (familyPool.pruneSpent T.hash coins).fCoinBase = T.isCoinBase ∧
      ∀ n, (familyPool.pruneSpent T.hash coins).IsAvailable n = true ↔
        (∃ o, T.vout[n]? = some o ∧ o.IsNull = false ∧ (fun _ => false) o.scriptPubKey = false) ∧
          ¬ ∃ T', familyPool.Pooled T' ∧ T'.isCoinImport = false ∧ ⟨T.hash, n⟩ ∈ T'.prevouts) ∧
    ∀ txid, familyPool.lookup txid = none → ∀ n,
      (∃ coins, familyPool.GetCoins (fun _ => false) (fun _ => none) txid = some coins ∧
          (familyPool.pruneSpent txid coins).IsAvailable n = true) ↔
        (∃ c, (fun _ => none) txid = some c ∧ CCoins.IsAvailable c n = true) ∧
          ¬ ∃ T', familyPool.Pooled T' ∧ T'.isCoinImport = false ∧ ⟨txid, n⟩ ∈ T'.prevouts :=
  have hs : Op.Reachable familyPool := ⟨false, false, _, run_familyPool⟩
  ⟨hs, getCoins_pruneSpent_available hs (fun _ => false) (fun _ => none)⟩

/-- The output of `parentTx` that `childTx` spends is not reported available. -/
example : ((familyPool.GetCoins (fun _ => false) (fun _ => none) 20).map
    fun coins => (familyPool.pruneSpent 20 coins).IsAvailable 0) = some false := by decide

/-- In every pool state, over every base view that keeps the contract of the coins cache (`HaveCoins(txid)` exactly
when its `GetCoins(txid)` returns coins that are not pruned), the pool's view answers `HaveCoins(txid)` exactly when
its `GetCoins(txid)` returns coins. The coins it returns are pruned exactly when `txid` is the hash of a pooled
transaction whose every output is null or unspendable, such as one with no transparent output: `ClearUnspendable`
prunes the coins built for it. -/
theorem coinsViewMemPool_contract (s : CTxMemPool) (IsUnspendable : List UInt8 → Bool)
    (baseGetCoins : Uint256 → Option CCoins) (baseHaveCoins : Uint256 → Bool)
    (hbase : ∀ txid, baseHaveCoins txid = true ↔ ∃ c, baseGetCoins txid = some c ∧ c.IsPruned = false)
    (txid : Uint256) :
    (s.HaveCoins baseHaveCoins txid = true ↔ ∃ coins, s.GetCoins IsUnspendable baseGetCoins txid = some coins) ∧
      ∀ coins, s.GetCoins IsUnspendable baseGetCoins txid = some coins →
        (coins.IsPruned = true ↔
          ∃ T, s.lookup txid = some T ∧ ∀ o ∈ T.vout, o.IsNull = true ∨ IsUnspendable o.scriptPubKey = true) := by
  rw [HaveCoins, exists_eq_isSome_lookup, GetCoins]
  cases s.lookup txid with
  | some T =>
    -- a pooled hash: the pool answers both, with the coins of its transaction
    refine ⟨iff_of_true (Bool.true_or _) ⟨_, rfl⟩, fun coins hc => ?_⟩
    rw [← Option.some.inj hc, CCoins.isPruned_fromTx]
    simp only [Option.some.injEq, exists_eq_left']
  | none =>
    -- a hash not pooled: the base answers both, with its pruned coins filtered out
    rw [Option.isSome_none, Bool.false_or, hbase]
    refine ⟨by simp only [Option.filter_eq_some, Bool.not_eq_true', Option.mem_def], fun coins hc => ?_⟩
    obtain ⟨-, hp⟩ := Option.filter_eq_some.1 hc
    simp only [Bool.not_eq_true'] at hp
    simp [hp]

/-- The base view that holds nothing keeps the contract of the coins cache; the hash of `parentTx`, with no script
unspendable. -/
theorem coinsViewMemPool_contract_emptyBase :
    (∀ _ : Uint256, false = true ↔ ∃ c : CCoins, none = some c ∧ c.IsPruned = false) ∧
    (familyPool.HaveCoins (fun _ => false) 20 = true ↔
        ∃ coins, familyPool.GetCoins (fun _ => false) (fun _ => none) 20 = some coins) ∧
      ∀ coins, familyPool.GetCoins (fun _ => false) (fun _ => none) 20 = some coins →
        (coins.IsPruned = true ↔ ∃ T, familyPool.lookup 20 = some T ∧
          ∀ o ∈ T.vout, o.IsNull = true ∨ (fun _ => false) o.scriptPubKey = true) :=
  have hbase : ∀ _ : Uint256, false = true ↔ ∃ c : CCoins, none = some c ∧ c.IsPruned = false := fun _ => by simp
  ⟨hbase, coinsViewMemPool_contract familyPool (fun _ => false) (fun _ => none) (fun _ => false) hbase 20⟩

/-- With every script unspendable, the pool's view returns pruned coins for `parentTx`. -/
example : ((familyPool.GetCoins (fun _ => true) (fun _ => none) 20).map CCoins.IsPruned) = some true := by decide

end VerusCoin
