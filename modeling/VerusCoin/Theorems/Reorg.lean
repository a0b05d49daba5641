import VerusCoin.Lemmas.RemoveAll
import VerusCoin.Lemmas.PoolInv

/-!
# The coins test of `removeForReorg`

The test on an input's coins reads `!coins || (coins->IsCoinBase() && immature || timelocked)`: `&&` binds tighter
than `||`, so the time lock applies to the coins of every input, not only to a coinbase (`reorgEvicts_eq`). A
transaction that spends a coinbase is therefore evicted for a time-locked input that is no coinbase, which the
coinbase-only reading of the test (`reorgEvictsCoinbaseOnly`) never does. What the code erases is the union of `D(T)`
over the pooled `T` its own scan flags (`removeForReorg_erases_flagged`).
-/

namespace VerusCoin

open CTxMemPool

/-- The test on an input's coins with the time lock under the coinbase test, as the design reads it:
`!coins || (coins->IsCoinBase() && (immature || timelocked))`. -/
def reorgEvictsCoinbaseOnly (ctx : ReorgContext) (nMemPoolHeight : UInt32) : Option CCoins → Bool
  | none => true
  | some coins =>
    coins.fCoinBase && (reorgImmature ctx nMemPoolHeight coins || reorgTimelocked ctx nMemPoolHeight coins)

/-- The code's test is the coinbase-only one, or else time-locked coins that are no coinbase. -/
theorem reorgEvicts_eq (ctx : ReorgContext) (h : UInt32) (coins : Option CCoins) :
    reorgEvicts ctx h coins =
      (reorgEvictsCoinbaseOnly ctx h coins || coins.any (fun c => !c.fCoinBase && reorgTimelocked ctx h c)) := by
  rcases coins with _ | ⟨_ | _, vout, nHeight⟩ <;> simp [reorgEvicts, reorgEvictsCoinbaseOnly]

/-- A chain context: every transaction final, coins of height `50` locked until height `1000`, any value locked. -/
def lockCtx : ReorgContext :=
  ⟨fun _ _ => true, fun h => if h = 50 then 1000 else 0, 0, true, 100⟩

/-- A transaction spending the coinbase output `(41, 0)` and the output `(40, 0)` of an ordinary transaction. -/
def lockedTx : CTransaction := ⟨30, [⟨⟨41, 0⟩⟩, ⟨⟨40, 0⟩⟩], [⟨9, []⟩], [], [], false, false⟩

/-- The pool entry of `lockedTx`, flagged as spending a coinbase. -/
def lockedEntry : CTxMemPoolEntry := ⟨lockedTx, 1, 250, 250, 300, 0, 0.0, 1, false, true, false, 0⟩

/-- The pool holding `lockedTx` alone. -/
def lockedPool : CTxMemPool := (CTxMemPool.empty false false).addUnchecked 30 lockedEntry

/-- The coins view: `41` a coinbase of height `10`, `40` an ordinary transaction of height `50`. -/
def lockCoins (h : Uint256) : Option CCoins :=
  if h = 41 then some ⟨true, [⟨5, []⟩], 10⟩ else if h = 40 then some ⟨false, [⟨5, []⟩], 50⟩ else none

/-- At height `200`, `lockedTx` is final, both its inputs have coins, the coinbase is mature and not time-locked, and
under the coinbase-only reading no input evicts it; yet `removeForReorg` removes it, for the time lock on the ordinary
coins of `(40, 0)`: the second disjunct of the code's test as `reorgEvicts_eq` splits it. -/
theorem reorg_evicts_timelocked_noncoinbase :
    lockedPool.Pooled lockedTx ∧ lockedEntry.spendsCoinbase = true ∧ lockCtx.CheckFinalTx lockedTx 0 = true ∧
      (∀ txin ∈ lockedTx.vin, (lockCoins txin.prevout.hash).isSome ∧
        reorgEvictsCoinbaseOnly lockCtx 200 (lockCoins txin.prevout.hash) = false) ∧
      (lockCoins 40).map CCoins.fCoinBase = some false ∧ reorgEvicts lockCtx 200 (lockCoins 40) = true ∧
      ∃ s', CTxMemPool.removeForReorg lockCtx lockedPool lockCoins 200 0 = some s' ∧ ¬ s'.Pooled lockedTx := by
  have hcollect : reorgCollect lockCtx lockedPool lockCoins 200 0 lockedPool.mapTx.entries = some [lockedTx] := by
    decide
  have h30 : lockedPool.mapTx.find 30 = some lockedEntry := rfl
  have hrem : lockedPool.remove lockedTx [] true = (lockedPool.eraseEntry 30 lockedEntry, [lockedTx]) := by
    show lockedPool.removeLoop true [30] [] = _
    rw [removeLoop_cons_some true [] [] h30, if_pos rfl,
      show lockedPool.spenders 30 lockedEntry.tx.vout.length = [] from rfl, List.nil_append, List.nil_append,
      removeLoop_nil]
    rfl
  have hevict : reorgEvicts lockCtx 200 (lockCoins 40) = true := by
    rw [reorgEvicts_eq, Bool.or_eq_true]
    exact .inr (by decide)
  refine ⟨rfl, rfl, rfl, by decide, rfl, hevict, _, by rw [CTxMemPool.removeForReorg, hcollect]; rfl, ?_⟩
  show ¬ (lockedPool.remove lockedTx [] true).1.Pooled lockedTx
  rw [hrem, pooled_eraseEntry]
  exact fun h => h.2 rfl

/-! ## What `removeForReorg` erases -/

/-- The entries the scan of `removeForReorg` collects: not final, or spending a coinbase with an input whose coins pass
the test of the code. -/
def reorgFlagged (ctx : ReorgContext) (s : CTxMemPool) (pcoins : Uint256 → Option CCoins) (nMemPoolHeight : UInt32)
    (flags : Int) (e : CTxMemPoolEntry) : Bool :=
  !ctx.CheckFinalTx e.tx flags ||
    (e.spendsCoinbase && reorgScanInputs ctx s pcoins nMemPoolHeight e.tx.vin == some true)

section

variable {ctx : ReorgContext} {s : CTxMemPool} {pcoins : Uint256 → Option CCoins} {nMemPoolHeight : UInt32}
  {flags : Int}

/-- The scan collects the flagged entries, in order. -/
theorem reorgCollect_eq : ∀ {es : List CTxMemPoolEntry} {L : List CTransaction},
    reorgCollect ctx s pcoins nMemPoolHeight flags es = some L →
      L = (es.filter (reorgFlagged ctx s pcoins nMemPoolHeight flags)).map (·.tx)
  | [], L, hL => by simp only [reorgCollect, Option.some.injEq] at hL; simp [← hL]
  | e :: es, L, hL => by
    unfold reorgCollect at hL
    cases hfin : ctx.CheckFinalTx e.tx flags
    · obtain ⟨L', hL', rfl⟩ := Option.map_eq_some'.1 (by simpa [hfin] using hL)
      simp [reorgFlagged, hfin, reorgCollect_eq hL']
    cases hsc : e.spendsCoinbase
    · simp only [hfin, hsc, Bool.not_true, Bool.false_eq_true, if_false] at hL
      simp [reorgFlagged, hfin, hsc, reorgCollect_eq hL]
    cases hscan : reorgScanInputs ctx s pcoins nMemPoolHeight e.tx.vin with
    | none => simp [hfin, hsc, hscan] at hL
    | some b =>
      cases b
      · simp only [hfin, hsc, hscan, Bool.not_true, Bool.false_eq_true, if_false, if_true] at hL
        simp [reorgFlagged, hfin, hsc, hscan, reorgCollect_eq hL]
      · obtain ⟨L', hL', rfl⟩ := Option.map_eq_some'.1 (by simpa [hfin, hsc, hscan] using hL)
        simp [reorgFlagged, hfin, hsc, hscan, reorgCollect_eq hL']

/-- With checks off the input scan never aborts. -/
theorem reorgScanInputs_isSome (h0 : s.nCheckFrequency = 0) :
    ∀ vin : List CTxIn, (reorgScanInputs ctx s pcoins nMemPoolHeight vin).isSome
  | [] => rfl
  | txin :: rest => by
    unfold reorgScanInputs
    split
    · exact reorgScanInputs_isSome h0 rest
    · simp only [h0, ne_eq, not_true_eq_false, false_and, if_false]
      split
      · rfl
      · exact reorgScanInputs_isSome h0 rest

/-- With checks off the scan of `mapTx` never aborts. -/
theorem reorgCollect_isSome (h0 : s.nCheckFrequency = 0) :
    ∀ es : List CTxMemPoolEntry, (reorgCollect ctx s pcoins nMemPoolHeight flags es).isSome
  | [] => rfl
  | e :: es => by
    have ih := reorgCollect_isSome h0 es
    unfold reorgCollect
    split
    · simpa using ih
    split
    · have hscan : (reorgScanInputs ctx s pcoins nMemPoolHeight e.tx.vin).isSome := reorgScanInputs_isSome h0 _
      obtain ⟨b, hb⟩ := Option.isSome_iff_exists.1 hscan
      rw [hb]
      cases b
      · exact ih
      · simpa using ih
    · exact ih

end

/-- In a pool satisfying `PoolInv`: with checks off `removeForReorg` does not abort, and when it does not abort it
erases exactly the union of `D(T)` over the pooled transactions of the entries its scan flags, with all their index
entries, while every other pooled transaction keeps its entries. -/
theorem removeForReorg_erases_flagged (ctx : ReorgContext) (s : CTxMemPool) (hinv : s.PoolInv)
    (pcoins : Uint256 → Option CCoins) (nMemPoolHeight : UInt32) (flags : Int) :
    (s.nCheckFrequency = 0 → (CTxMemPool.removeForReorg ctx s pcoins nMemPoolHeight flags).isSome) ∧
      ∀ s', CTxMemPool.removeForReorg ctx s pcoins nMemPoolHeight flags = some s' →
        ∃ ds, ds.Nodup ∧
          (∀ c, c ∈ ds ↔ ∃ e ∈ s.mapTx.entries,
            reorgFlagged ctx s pcoins nMemPoolHeight flags e = true ∧ s.Descendant e.tx c) ∧
          ErasedExactly s ds s' ∧ KeepsOthers s ds s' := by
  refine ⟨fun h0 => by simpa [CTxMemPool.removeForReorg] using reorgCollect_isSome h0 s.mapTx.entries,
    fun s' hs' => ?_⟩
  obtain ⟨L, hL, rfl⟩ := Option.map_eq_some'.1 hs'
  rw [reorgCollect_eq hL]
  obtain ⟨ds, hnd, hiff, hE, hK, -⟩ := removeAll_filter_spec hinv (reorgFlagged ctx s pcoins nMemPoolHeight flags)
  exact ⟨ds, hnd, hiff, hE, hK⟩

theorem run_lockedPool : Op.Run (CTxMemPool.empty false false) [.addUnchecked 30 lockedEntry] lockedPool := by
  refine ⟨⟨rfl, rfl, by decide, ?_, ?_, ?_⟩, _, rfl, rfl⟩ <;> simp [CTxMemPool.empty, TxSet.empty]

/-- `removeForReorg` on the reachable pool holding `lockedTx`, at height `200` with the coins view `lockCoins`. -/
theorem removeForReorg_lockedPool : lockedPool.PoolInv ∧
    ((lockedPool.nCheckFrequency = 0 → (CTxMemPool.removeForReorg lockCtx lockedPool lockCoins 200 0).isSome) ∧
      ∀ s', CTxMemPool.removeForReorg lockCtx lockedPool lockCoins 200 0 = some s' →
        ∃ ds, ds.Nodup ∧
          (∀ c, c ∈ ds ↔ ∃ e ∈ lockedPool.mapTx.entries,
            reorgFlagged lockCtx lockedPool lockCoins 200 0 e = true ∧ lockedPool.Descendant e.tx c) ∧
          ErasedExactly lockedPool ds s' ∧ KeepsOthers lockedPool ds s') :=
  have hinv : lockedPool.PoolInv := PoolInv.of_reachable ⟨false, false, _, run_lockedPool⟩
  ⟨hinv, removeForReorg_erases_flagged lockCtx lockedPool hinv lockCoins 200 0⟩

end VerusCoin
