import Mathlib.Data.List.Basic
import VerusCoin.Descendants
import VerusCoin.Lemmas.Basic

/-!
# Erasing a list of entries

The loop of `remove` erases pooled entries one by one. After a list of distinct pooled entries is erased, each index is
the old one with the keys of those entries erased (`erasedExactly_eraseEntries`), and in a pool satisfying `PoolInv`
every other pooled transaction keeps its own index entries (`ErasedExactly.keepsOthers`).
-/

namespace VerusCoin

namespace CTxMemPool

variable {s : CTxMemPool}

/-- Erasing no entry leaves the pool. -/
theorem eraseEntries_nil (s : CTxMemPool) : s.eraseEntries [] = s := rfl

/-- Erasing a list and then one more entry is erasing the longer list. -/
theorem eraseEntries_append (s : CTxMemPool) (es : List CTxMemPoolEntry) (e : CTxMemPoolEntry) :
    s.eraseEntries (es ++ [e]) = (s.eraseEntries es).eraseEntry e.GetHash e := by
  simp [eraseEntries, List.foldl_append]

/-- Erasing two lists one after the other is erasing their concatenation. -/
theorem eraseEntries_eraseEntries (s : CTxMemPool) (es es' : List CTxMemPoolEntry) :
    (s.eraseEntries es).eraseEntries es' = s.eraseEntries (es ++ es') :=
  (List.foldl_append _ _ _ _).symm

/-- An index that one erasure cuts at the keys of the entry is, after the loop, cut at the keys of all entries. -/
theorem eraseEntries_index {K V : Type} [DecidableEq K] (F : CTxMemPool → StdMap K V)
    (keys : CTxMemPoolEntry → List K) (hF : ∀ s e, F (s.eraseEntry e.GetHash e) = (F s).eraseAll (keys e)) :
    ∀ (s : CTxMemPool) (es : List CTxMemPoolEntry), F (s.eraseEntries es) = (F s).eraseAll (es.flatMap keys)
  | _, [] => rfl
  | s, e :: es => by
    show F ((s.eraseEntry e.GetHash e).eraseEntries es) = _
    rw [eraseEntries_index F keys hF _ es, hF, List.flatMap_cons, StdMap.eraseAll_append]

/-- After erasing a list of entries, `mapTx` keeps exactly the entries of the hashes not erased. -/
theorem eraseEntries_mapTx (s : CTxMemPool) :
    ∀ es : List CTxMemPoolEntry, (s.eraseEntries es).mapTx.entries =
      s.mapTx.entries.filter (fun e => e.GetHash ∉ es.map CTxMemPoolEntry.GetHash)
  | [] => by simp [eraseEntries]
  | e :: es => by
    show ((s.eraseEntry e.GetHash e).eraseEntries es).mapTx.entries = _
    rw [eraseEntries_mapTx _ es, eraseEntry_mapTx, TxSet.erase, List.filter_filter]
    congr 1
    funext e'
    simp [Bool.and_comm]

/-- `eraseInserted` erases the records listed for the hash, and the list. -/
theorem eraseInserted_eq {K V : Type} [DecidableEq K] (records : StdMap K V) (inserted : StdMap Uint256 (List K))
    (h : Uint256) :
    eraseInserted records inserted h = (records.eraseAll ((inserted.find h).getD []), inserted.erase h) := by
  unfold eraseInserted
  split
  · next keys hk => rw [hk]; rfl
  · next hk => rw [hk, StdMap.erase_of_find_eq_none hk]; rfl

/-- The address and the spent index, erased by `removeAddressIndex` and `removeSpentIndex` when enabled: after the
loop over entries of distinct hashes, the records listed under those hashes and the lists are erased. -/
theorem eraseEntries_inserted {K V : Type} [DecidableEq K] (R : CTxMemPool → StdMap K V)
    (I : CTxMemPool → StdMap Uint256 (List K)) (flag : CTxMemPool → Bool)
    (hflag : ∀ s h e, flag (s.eraseEntry h e) = flag s)
    (hR : ∀ s h e, R (s.eraseEntry h e) = if flag s then (eraseInserted (R s) (I s) h).1 else R s)
    (hI : ∀ s h e, I (s.eraseEntry h e) = if flag s then (eraseInserted (R s) (I s) h).2 else I s) :
    ∀ (s : CTxMemPool) (es : List CTxMemPoolEntry), (es.map CTxMemPoolEntry.GetHash).Nodup →
      R (s.eraseEntries es) =
          (if flag s then (R s).eraseAll (es.flatMap fun e => ((I s).find e.GetHash).getD []) else R s) ∧
        I (s.eraseEntries es) = if flag s then (I s).eraseAll (es.map CTxMemPoolEntry.GetHash) else I s
  | _, [], _ => by simp [eraseEntries, StdMap.eraseAll]
  | s, e :: es, hnd => by
    show R ((s.eraseEntry e.GetHash e).eraseEntries es) = _ ∧ I ((s.eraseEntry e.GetHash e).eraseEntries es) = _
    have hne : ∀ e' ∈ es, e'.GetHash ≠ e.GetHash := fun e' he' h =>
      (List.nodup_cons.1 hnd).1 (h ▸ List.mem_map_of_mem _ he')
    obtain ⟨ihR, ihI⟩ := eraseEntries_inserted R I flag hflag hR hI _ es (List.nodup_cons.1 hnd).2
    rw [ihR, ihI, hflag, hR, hI]
    cases hf : flag s
    · simp
    · simp only [if_true, eraseInserted_eq, List.flatMap_cons, List.map_cons, StdMap.eraseAll_append]
      refine ⟨congrArg _ (List.flatMap_congr fun e' he' => ?_), rfl⟩
      rw [StdMap.find_erase, if_neg (hne e' he')]

/-- The address index after erasing entries of distinct hashes: the records listed under them are erased. -/
theorem eraseEntries_address (s : CTxMemPool) (es : List CTxMemPoolEntry)
    (hnd : (es.map CTxMemPoolEntry.GetHash).Nodup) :
    (s.eraseEntries es).mapAddress = (if s.fAddressIndex then
        s.mapAddress.eraseAll (es.flatMap fun e => (s.mapAddressInserted.find e.GetHash).getD []) else s.mapAddress) ∧
      (s.eraseEntries es).mapAddressInserted = if s.fAddressIndex then
        s.mapAddressInserted.eraseAll (es.map CTxMemPoolEntry.GetHash) else s.mapAddressInserted :=
  eraseEntries_inserted mapAddress mapAddressInserted fAddressIndex (fun _ _ _ => by rw [eraseEntry_eq])
    (fun _ _ _ => by rw [eraseEntry_eq]) (fun _ _ _ => by rw [eraseEntry_eq]) s es hnd

/-- The spent index after erasing entries of distinct hashes: the records listed under them are erased. -/
theorem eraseEntries_spent (s : CTxMemPool) (es : List CTxMemPoolEntry) (hnd : (es.map CTxMemPoolEntry.GetHash).Nodup) :
    (s.eraseEntries es).mapSpent = (if s.fSpentIndex then
        s.mapSpent.eraseAll (es.flatMap fun e => (s.mapSpentInserted.find e.GetHash).getD []) else s.mapSpent) ∧
      (s.eraseEntries es).mapSpentInserted = if s.fSpentIndex then
        s.mapSpentInserted.eraseAll (es.map CTxMemPoolEntry.GetHash) else s.mapSpentInserted :=
  eraseEntries_inserted mapSpent mapSpentInserted fSpentIndex (fun _ _ _ => by rw [eraseEntry_eq])
    (fun _ _ _ => by rw [eraseEntry_eq]) (fun _ _ _ => by rw [eraseEntry_eq]) s es hnd

/-! ## The erased transactions -/

/-- Erasing distinct pooled entries erases exactly their transactions and the index entries keyed by them. -/
theorem erasedExactly_eraseEntries {s₀ : CTxMemPool} {es : List CTxMemPoolEntry}
    (hsub : ∀ e ∈ es, e ∈ s₀.mapTx.entries) (hnd : (es.map CTxMemPoolEntry.GetHash).Nodup) :
    ErasedExactly s₀ (es.map (·.tx)) (s₀.eraseEntries es) := by
  have hsingle : ∀ k : CTxMemPoolEntry → Uint256, (es.flatMap fun e => [k e]) = es.map k :=
    fun k => (List.map_eq_flatMap k es).symm
  have hhash : es.map CTxMemPoolEntry.GetHash = (es.map (·.tx)).map CTransaction.hash := by rw [List.map_map]; rfl
  obtain ⟨hA, hAI⟩ := eraseEntries_address s₀ es hnd
  obtain ⟨hS, hSI⟩ := eraseEntries_spent s₀ es hnd
  refine ⟨?_, ?_, ?_, ?_, ?_, ?_, ?_, ?_, ?_, ?_, ?_⟩
  · rw [eraseEntries_mapTx]
    refine List.filter_congr fun e he => ?_
    have : e.GetHash ∈ es.map CTxMemPoolEntry.GetHash ↔ e.tx ∈ es.map (·.tx) := by
      simp only [List.mem_map]
      constructor
      · rintro ⟨e', he', h⟩
        exact ⟨e', he', by rw [entry_eq_of_hash_eq (hsub e' he') he h]⟩
      · rintro ⟨e', he', h⟩
        exact ⟨e', he', by simp [CTxMemPoolEntry.GetHash, h]⟩
    simp only [this]
  · rw [eraseEntries_index _ (·.tx.prevouts) (fun _ _ => eraseEntry_mapNextTx ..), List.flatMap_map]
  · rw [eraseEntries_index _ (·.tx.sproutNullifiers) (fun _ _ => eraseEntry_mapSproutNullifiers ..),
      List.flatMap_map]
  · rw [eraseEntries_index _ (·.tx.saplingNullifiers) (fun _ _ => eraseEntry_mapSaplingNullifiers ..),
      List.flatMap_map]
  · rw [eraseEntries_index _ (fun e => [e.GetHash]) (fun _ _ => eraseEntry_mapRecentlyAddedTx ..), hsingle, hhash]
  · rw [eraseEntries_index _ (fun e => [e.tx.hash]) (fun _ _ => eraseEntry_mapDeltas ..), hsingle, List.map_map]
    rfl
  · rw [eraseEntries_index _ (fun e => [e.tx.hash]) (fun _ _ => eraseEntry_mapReserveTransactions ..), hsingle,
      List.map_map]
    rfl
  · rw [hA, insertedKeys, List.flatMap_map]
    rfl
  · rw [hAI, hhash]
  · rw [hS, insertedKeys, List.flatMap_map]
    rfl
  · rw [hSI, hhash]

/-- In a pool satisfying `PoolInv`, erasing pooled transactions with their index entries leaves every other pooled
transaction its own: pooled transactions spend disjoint outpoints and reveal disjoint nullifiers. -/
theorem ErasedExactly.keepsOthers {s₀ s : CTxMemPool} {ds : List CTransaction} (hinv : s₀.PoolInv)
    (hds : ∀ d ∈ ds, s₀.Pooled d) (h : ErasedExactly s₀ ds s) : KeepsOthers s₀ ds s := by
  intro tx htx hnot
  obtain ⟨etx, hetx, rfl⟩ := pooled_iff.1 htx
  have hhash : etx.tx.hash ∉ ds.map CTransaction.hash := fun hm => by
    obtain ⟨d, hd, hh⟩ := List.mem_map.1 hm
    have h₁ := hds d hd
    rw [Pooled, hh, htx] at h₁
    exact hnot (Option.some.inj h₁ ▸ hd)
  have hkey : ∀ {V : Type} (m : StdMap Uint256 V),
      (m.eraseAll (ds.map CTransaction.hash)).find etx.tx.hash = m.find etx.tx.hash := fun m => by
    rw [StdMap.find_eraseAll, if_neg hhash]
  -- a complete nullifier index maps a nullifier to the one pooled transaction revealing it
  have hnf : ∀ (nfs : CTransaction → List Uint256) (m : StdMap Uint256 CTransaction),
      (∀ e ∈ s₀.mapTx.entries, ∀ nf ∈ nfs e.tx, m.find nf = some e.tx) →
        ∀ nf ∈ nfs etx.tx, (m.eraseAll (ds.flatMap nfs)).find nf = m.find nf := by
    intro nfs m hc nf hnf
    rw [StdMap.find_eraseAll, if_neg]
    intro hm
    obtain ⟨d, hd, hnfd⟩ := List.mem_flatMap.1 hm
    obtain ⟨ed, hed, rfl⟩ := pooled_iff.1 (hds d hd)
    exact hnot (Option.some.inj ((hc ed hed nf hnfd).symm.trans (hc etx hetx nf hnf)) ▸ hd)
  refine ⟨pooled_iff.2 ⟨etx, by rw [h.mapTx]; simpa using ⟨hetx, hnot⟩, rfl⟩, fun o ho => ?_,
    fun nf hn => by rw [h.mapSproutNullifiers, hnf _ _ (fun e he => (hinv.nullifiers e he).1) nf hn],
    fun nf hn => by rw [h.mapSaplingNullifiers, hnf _ _ (fun e he => (hinv.nullifiers e he).2) nf hn],
    by rw [h.mapRecentlyAddedTx, hkey], by rw [h.mapDeltas, hkey], by rw [h.mapReserveTransactions, hkey], ?_, ?_⟩
  · rw [h.mapNextTx, StdMap.find_eraseAll, if_neg]
    intro hm
    obtain ⟨d, hd, hod⟩ := List.mem_flatMap.1 hm
    obtain ⟨ed, hed, rfl⟩ := pooled_iff.1 (hds d hd)
    exact hinv.disjoint ed hed etx hetx (fun hh => hhash (List.mem_map.2 ⟨_, hd, hh⟩)) o hod ho
  · rw [h.mapAddressInserted]
    split_ifs <;> simp only [hkey]
  · rw [h.mapSpentInserted]
    split_ifs <;> simp only [hkey]

end CTxMemPool

end VerusCoin
