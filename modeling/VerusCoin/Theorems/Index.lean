import VerusCoin.Lemmas.Index
import VerusCoin.Theorems.CheckIndexes

/-!
# What the address and spent indexes answer

Over every run of pool calls and index insertions without `clear()` from a freshly constructed pool, the invariant
`IndexInv` holds. Read through the two queries: `getSpentIndex` answers for pooled spenders only, and for every input
of a pooled transaction the index was filled for; `getAddressIndex`, whose scan from `lower_bound` reads the same
records as a filter of the whole map, returns records of pooled transactions only, and every key listed for a
transaction. Right after `AcceptToMemoryPool` has pooled and indexed an entry, both queries return the records the
insertions built for it.
-/

namespace VerusCoin

open CTxMemPool

/-- For every run of pool calls and index insertions without `clear()` from a freshly constructed pool, a record
`getSpentIndex` returns for an outpoint names a pooled transaction whose input at the recorded position spends that
outpoint; and for a pooled transaction the spent index was filled for, every outpoint it spends has a record naming
it. -/
theorem getSpentIndex_exact {fA fS : Bool} {ops : List IndexOp} {s : CTxMemPool}
    (hrun : IndexOp.Run (CTxMemPool.empty fA fS) ops s) (hclear : ∀ op ∈ ops, op ≠ .call .clear) :
    (∀ key v, s.getSpentIndex key = some v →
      ∃ e, s.mapTx.find v.txid = some e ∧ e.tx.prevouts[v.inputIndex]? = some ⟨key.txid, key.outputIndex⟩) ∧
    ∀ t e, s.mapTx.find t = some e → (s.mapSpentInserted.find t).isSome →
      ∀ o ∈ e.tx.prevouts, ∃ v, s.getSpentIndex ⟨o.hash, o.n⟩ = some v ∧ v.txid = t := by
  obtain ⟨-, hs⟩ := IndexInv.of_run hrun hclear
  refine ⟨hs.spender, fun t e he hl o ho => ?_⟩
  obtain ⟨keys, hkeys⟩ := Option.isSome_iff_exists.1 hl
  obtain ⟨-, e', he', rfl⟩ := hs.spentPooled t keys hkeys
  obtain rfl : e' = e := Option.some.inj (he'.symm.trans he)
  obtain ⟨input, hin, rfl⟩ := List.mem_map.1 ho
  exact hs.spent.listed t _ hkeys _ (List.mem_map.2 ⟨input, hin, rfl⟩)

/-- For every such run, `getAddressIndex(addresses, results)` appends, for each address and type in turn, exactly the
records of `mapAddress` with that address and type, in key order, as a filter of the whole map would; every record
of `mapAddress` belongs to a pooled transaction and is listed for it; and every key listed for a transaction carries
its hash and is returned, with its record, for the key's address and type. -/
theorem getAddressIndex_exact {fA fS : Bool} {ops : List IndexOp} {s : CTxMemPool}
    (hrun : IndexOp.Run (CTxMemPool.empty fA fS) ops s) (hclear : ∀ op ∈ ops, op ≠ .call .clear) :
    (∀ addresses results, s.getAddressIndex addresses results =
      results ++ addresses.flatMap fun a =>
        s.mapAddress.entries.filter fun p => p.1.addressBytes = a.1 ∧ p.1.type = a.2) ∧
    (∀ p ∈ s.mapAddress.entries,
      (s.mapTx.find p.1.txhash).isSome ∧ ∃ keys, s.mapAddressInserted.find p.1.txhash = some keys ∧ p.1 ∈ keys) ∧
    ∀ t keys, s.mapAddressInserted.find t = some keys →
      ∀ k ∈ keys, k.txhash = t ∧ ∃ d, (k, d) ∈ s.getAddressIndex [(k.addressBytes, k.type)] [] := by
  obtain ⟨-, hs⟩ := IndexInv.of_run hrun hclear
  refine ⟨getAddressIndex_eq_filter hs.addressOrdered, fun p hp => ?_, fun t keys ht k hk => ?_⟩
  · have hf := hs.addressOrdered.find_of_mem CMempoolAddressDeltaKey.compare_lt_irrefl hp
    obtain ⟨keys, hkeys, hk⟩ := hs.address.record _ _ hf
    exact ⟨(hs.addressPooled _ keys hkeys).2, keys, hkeys, hk⟩
  · obtain ⟨d, hd, rfl⟩ := hs.address.listed t keys ht k hk
    refine ⟨rfl, d, ?_⟩
    rw [getAddressIndex_eq_filter hs.addressOrdered]
    simpa using StdMap.mem_of_find_eq_some hd

/-- In every state such a run reaches, with both indexes on, the calls `AcceptToMemoryPool` makes for an entry,
`addUnchecked(hash, entry)` as its callers guarantee and then `addAddressIndex` and `addSpentIndex`, are allowed; and
afterwards `getAddressIndex` returns every record `addAddressIndex` built for the entry under its address and type,
and `getSpentIndex` returns, for the outpoint of every input, the record `addSpentIndex` built for it. -/
theorem accept_indexes_lookup {fA fS : Bool} {ops : List IndexOp} {s : CTxMemPool} {hash : Uint256}
    {entry : CTxMemPoolEntry} (ctx : IndexContext) (hrun : IndexOp.Run (CTxMemPool.empty fA fS) ops s)
    (hclear : ∀ op ∈ ops, op ≠ .call .clear) (hA : s.fAddressIndex = true) (hS : s.fSpentIndex = true)
    (hok : Op.AddOk s hash entry) :
    let s' := ((s.addUnchecked hash entry).addAddressIndex entry ctx).addSpentIndex entry ctx
    IndexOp.Run s [.call (.addUnchecked hash entry), .addAddressIndex entry ctx, .addSpentIndex entry ctx] s' ∧
      (∀ p ∈ spendingAddressRecords ctx entry ++ receivingAddressRecords ctx entry,
        p ∈ s'.getAddressIndex [(p.1.addressBytes, p.1.type)] []) ∧
      ∀ p ∈ spentRecords ctx entry, s'.getSpentIndex p.1 = some p.2 := by
  obtain ⟨hi, hs⟩ := IndexInv.of_run hrun hclear
  obtain rfl := hok.hash_eq
  have hA0 : s.mapAddressInserted.find entry.GetHash = none := Option.eq_none_iff_forall_not_mem.2 fun keys hk => by
    simpa [hok.fresh] using (hs.addressPooled _ keys hk).2
  have hS0 : s.mapSpentInserted.find entry.GetHash = none := Option.eq_none_iff_forall_not_mem.2 fun keys hk => by
    obtain ⟨-, e, he, -⟩ := hs.spentPooled _ keys hk
    simp [hok.fresh] at he
  have hpool : (s.addUnchecked entry.GetHash entry).mapTx.find entry.GetHash = some entry := by
    show (s.mapTx.insert entry).find _ = _
    rw [TxSet.find_insert, if_pos ⟨rfl, by simp [hok.fresh]⟩]
  have ha₂ : (IndexOp.addAddressIndex entry ctx).Allowed (s.addUnchecked entry.GetHash entry) := ⟨hA, hpool, hA0⟩
  have ha₃ :
      (IndexOp.addSpentIndex entry ctx).Allowed ((s.addUnchecked entry.GetHash entry).addAddressIndex entry ctx) :=
    ⟨hS, hpool, hS0⟩
  have hs₁ := hs.addUnchecked entry.GetHash entry
  have hs₃ := (hs₁.addAddressIndex ha₂).addSpentIndex ((hi.addUnchecked hok).indexStep ha₂ rfl) ha₃
  refine ⟨⟨hok, _, rfl, ha₂, _, rfl, ha₃, _, rfl, rfl⟩, fun p hp => ?_, fun p hp => ?_⟩
  · have hf : (((s.addUnchecked entry.GetHash entry).addAddressIndex entry ctx).addSpentIndex entry
        ctx).mapAddress.find p.1 = some p.2 :=
      StdMap.find_insertPairs_of_fresh (hs.find_mapAddress_of_unlisted hA0 (txhash_of_mem_addressRecords hp)) hp
        fun q hq hqp => by rw [eq_of_mem_addressRecords hq hp hqp]
    rw [getAddressIndex_eq_filter hs₃.addressOrdered]
    simpa using StdMap.mem_of_find_eq_some hf
  · exact StdMap.find_insertPairs_of_fresh
      (hs₁.find_mapSpent_of_unlisted (hi.addUnchecked hok) hpool hS0 (List.getElem?_mem (mem_spentRecords hp).2)) hp
      fun q hq hqp => by rw [eq_of_mem_spentRecords hok.prevouts_nodup hq hp hqp]

/-! ## A run with both indexes on -/

/-- A coins view in which every input spends an output of value 5, with every script of type 1 and address 7. -/
def indexCtx : IndexContext := ⟨fun _ => ⟨5, []⟩, fun _ => 1, fun _ => 7, 0⟩

/-- Pooling and indexing `parentTx`. -/
def indexParentOps : List IndexOp :=
  [.call (.addUnchecked 20 (entryOf parentTx)), .addAddressIndex (entryOf parentTx) indexCtx,
    .addSpentIndex (entryOf parentTx) indexCtx]

/-- The pool with both indexes on holding `parentTx`, indexed. -/
def indexedParentPool : CTxMemPool :=
  (((CTxMemPool.empty true true).addUnchecked 20 (entryOf parentTx)).addAddressIndex (entryOf parentTx)
    indexCtx).addSpentIndex (entryOf parentTx) indexCtx

theorem run_indexedParentPool : IndexOp.Run (CTxMemPool.empty true true) indexParentOps indexedParentPool := by
  refine ⟨⟨rfl, rfl, by decide, ?_, ?_, ?_⟩, _, rfl, ⟨rfl, rfl, rfl⟩, _, rfl, ⟨rfl, rfl, rfl⟩, _, rfl, rfl⟩ <;>
    simp [CTxMemPool.empty, TxSet.empty]

theorem addOk_indexedParentPool : Op.AddOk indexedParentPool 21 (entryOf childTx) := by
  refine ⟨rfl, rfl, by decide, ?_, ?_, ?_⟩ <;>
    simp [indexedParentPool, CTxMemPool.addUnchecked, CTxMemPool.addAddressIndex, CTxMemPool.addSpentIndex,
      CTxMemPool.empty, TxSet.empty, TxSet.insert, TxSet.find, entryOf, parentTx, childTx, CTxMemPoolEntry.GetHash,
      CTransaction.prevouts, CTransaction.sproutNullifiers, CTransaction.saplingNullifiers]

/-- On the pool holding `parentTx` with both indexes on, `getSpentIndex` answers for pooled spenders only and for all
their inputs. -/
theorem getSpentIndex_exact_indexedParentPool :
    IndexOp.Run (CTxMemPool.empty true true) indexParentOps indexedParentPool ∧
      (∀ key v, indexedParentPool.getSpentIndex key = some v → ∃ e, indexedParentPool.mapTx.find v.txid = some e ∧
        e.tx.prevouts[v.inputIndex]? = some ⟨key.txid, key.outputIndex⟩) ∧
      ∀ t e, indexedParentPool.mapTx.find t = some e → (indexedParentPool.mapSpentInserted.find t).isSome →
        ∀ o ∈ e.tx.prevouts, ∃ v, indexedParentPool.getSpentIndex ⟨o.hash, o.n⟩ = some v ∧ v.txid = t :=
  ⟨run_indexedParentPool, getSpentIndex_exact run_indexedParentPool (by simp [indexParentOps])⟩

/-- On the pool holding `parentTx` with both indexes on, `getAddressIndex` reads the records of pooled transactions
by address and type. -/
theorem getAddressIndex_exact_indexedParentPool :
    IndexOp.Run (CTxMemPool.empty true true) indexParentOps indexedParentPool ∧
      (∀ addresses results, indexedParentPool.getAddressIndex addresses results =
        results ++ addresses.flatMap fun a =>
          indexedParentPool.mapAddress.entries.filter fun p => p.1.addressBytes = a.1 ∧ p.1.type = a.2) ∧
      (∀ p ∈ indexedParentPool.mapAddress.entries, (indexedParentPool.mapTx.find p.1.txhash).isSome ∧
        ∃ keys, indexedParentPool.mapAddressInserted.find p.1.txhash = some keys ∧ p.1 ∈ keys) ∧
      ∀ t keys, indexedParentPool.mapAddressInserted.find t = some keys →
        ∀ k ∈ keys, k.txhash = t ∧ ∃ d, (k, d) ∈ indexedParentPool.getAddressIndex [(k.addressBytes, k.type)] [] :=
  ⟨run_indexedParentPool, getAddressIndex_exact run_indexedParentPool (by simp [indexParentOps])⟩

/-- Pooling and indexing `childTx`, which spends the output of `parentTx`, on the pool holding `parentTx`. -/
theorem accept_indexes_lookup_childTx :
    IndexOp.Run (CTxMemPool.empty true true) indexParentOps indexedParentPool ∧
      indexedParentPool.fAddressIndex = true ∧ indexedParentPool.fSpentIndex = true ∧
      Op.AddOk indexedParentPool 21 (entryOf childTx) ∧
      let s' := ((indexedParentPool.addUnchecked 21 (entryOf childTx)).addAddressIndex (entryOf childTx)
        indexCtx).addSpentIndex (entryOf childTx) indexCtx
      IndexOp.Run indexedParentPool [.call (.addUnchecked 21 (entryOf childTx)),
          .addAddressIndex (entryOf childTx) indexCtx, .addSpentIndex (entryOf childTx) indexCtx] s' ∧
        (∀ p ∈ spendingAddressRecords indexCtx (entryOf childTx) ++ receivingAddressRecords indexCtx (entryOf childTx),
          p ∈ s'.getAddressIndex [(p.1.addressBytes, p.1.type)] []) ∧
        ∀ p ∈ spentRecords indexCtx (entryOf childTx), s'.getSpentIndex p.1 = some p.2 :=
  ⟨run_indexedParentPool, rfl, rfl, addOk_indexedParentPool,
    accept_indexes_lookup indexCtx run_indexedParentPool (by simp [indexParentOps]) rfl rfl addOk_indexedParentPool⟩

example : (((indexedParentPool.addUnchecked 21 (entryOf childTx)).addAddressIndex (entryOf childTx)
    indexCtx).addSpentIndex (entryOf childTx) indexCtx).getSpentIndex ⟨20, 0⟩ = some ⟨21, 0, -1, 5, 1, 7⟩ := by
  decide

end VerusCoin
