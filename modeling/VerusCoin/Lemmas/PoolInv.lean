import VerusCoin.Lemmas.Closed

/-!
# Every call preserves the pool invariant

`eraseEntry` (the body of `remove`'s loop) and `addUnchecked` under its callers' guarantee preserve `PoolInv`; `clear`
empties both `mapTx` and `mapNextTx`; the other calls are built from these or leave the indexes alone.
-/

namespace VerusCoin

namespace CTxMemPool

variable {s : CTxMemPool}

/-- A call that leaves `mapTx` and the spend and nullifier indexes alone keeps the invariant. -/
theorem PoolInv.of_sameIndexes {s' : CTxMemPool} (h : SameIndexes s s') (hi : s.PoolInv) : s'.PoolInv := by
  obtain ⟨h1, h2, h3, h4⟩ := h
  have hp : ∀ tx, s'.Pooled tx ↔ s.Pooled tx := fun tx => by simp only [Pooled, lookup, h1]
  refine ⟨?_, ?_, ?_, ?_, ?_⟩
  · intro e he; rw [h1] at he; rw [h2]; exact hi.complete e he
  · intro o p hp'; rw [h2] at hp'; rw [hp]; exact hi.sound o p hp'
  · intro o p hp'; rw [h2] at hp'; exact hi.notImport o p hp'
  · intro e₁ he₁ e₂ he₂; rw [h1] at he₁ he₂; exact hi.disjoint e₁ he₁ e₂ he₂
  · intro e he; rw [h1] at he; rw [h3, h4]; exact hi.nullifiers e he

/-- The body of `remove`'s loop preserves the invariant. -/
theorem PoolInv.eraseEntry {h : Uint256} {e : CTxMemPoolEntry} (hi : s.PoolInv) (hf : s.mapTx.find h = some e) :
    (s.eraseEntry h e).PoolInv := by
  obtain ⟨he, rfl⟩ := (TxSet.find_eq_some_iff _ _ _).1 hf
  have hmem : ∀ {x}, x ∈ (s.eraseEntry e.GetHash e).mapTx.entries ↔
      x ∈ s.mapTx.entries ∧ x.GetHash ≠ e.GetHash := by
    intro x; rw [eraseEntry_mapTx, mem_erase_entries]
  refine ⟨?_, ?_, ?_, ?_, ?_⟩
  · intro x hx hci i hi'
    obtain ⟨hx, hne⟩ := hmem.1 hx
    have ho : x.tx.vin[i].prevout ∉ e.tx.prevouts :=
      hi.disjoint x hx e he hne _ (CTransaction.prevout_mem _ _ hi')
    rw [eraseEntry_mapNextTx, StdMap.find_eraseAll, if_neg ho]
    exact hi.complete x hx hci i hi'
  · intro o p hp
    rw [eraseEntry_mapNextTx, StdMap.find_eraseAll] at hp
    split_ifs at hp with ho
    obtain ⟨hpool, hn, hpo⟩ := hi.sound o p hp
    refine ⟨pooled_eraseEntry.2 ⟨hpool, fun hh => ho ?_⟩, hn, hpo⟩
    obtain ⟨x, hx, hxt⟩ := pooled_iff.1 hpool
    obtain rfl : x = e := entry_eq_of_hash_eq hx he (by show x.tx.hash = _; rw [hxt, hh])
    rw [hxt, ← hpo]
    exact CTransaction.prevout_mem _ _ _
  · intro o p hp
    rw [eraseEntry_mapNextTx, StdMap.find_eraseAll] at hp
    split_ifs at hp
    exact hi.notImport o p hp
  · intro x hx y hy hne
    exact hi.disjoint x (hmem.1 hx).1 y (hmem.1 hy).1 hne
  · intro x hx
    obtain ⟨hx, hne⟩ := hmem.1 hx
    have hne' : x.tx ≠ e.tx := fun h => hne (by simp only [CTxMemPoolEntry.GetHash, h])
    obtain ⟨hsp, hsa⟩ := hi.nullifiers x hx
    obtain ⟨esp, esa⟩ := hi.nullifiers e he
    refine ⟨fun nf hnf => ?_, fun nf hnf => ?_⟩
    · rw [eraseEntry_mapSproutNullifiers, StdMap.find_eraseAll,
        if_neg fun hnfe => hne' (Option.some.inj ((hsp nf hnf).symm.trans (esp nf hnfe)))]
      exact hsp nf hnf
    · rw [eraseEntry_mapSaplingNullifiers, StdMap.find_eraseAll,
        if_neg fun hnfe => hne' (Option.some.inj ((hsa nf hnf).symm.trans (esa nf hnfe)))]
      exact hsa nf hnf

/-- Erasure and `ClearPrioritisation` preserve the invariant, so every eviction policy does. -/
theorem PoolInv.removalClosed : RemovalClosed PoolInv :=
  ⟨fun _ _ _ hi hf => hi.eraseEntry hf, fun s h hi => hi.of_sameIndexes (sameIndexes_clearPrioritisation s h)⟩

/-- Under its callers' guarantee `addUnchecked` pools the entry's transaction and keeps every pooled one. -/
theorem pooled_addUnchecked {hash : Uint256} {entry : CTxMemPoolEntry} (hok : Op.AddOk s hash entry)
    {tx : CTransaction} : (s.addUnchecked hash entry).Pooled tx ↔ s.Pooled tx ∨ tx = entry.tx := by
  rw [addUnchecked_eq hok.hash_eq hok.fresh, pooled_iff, pooled_iff,
    insert_entries_of_fresh (hok.hash_eq ▸ hok.fresh : s.mapTx.find entry.GetHash = none)]
  simp only [List.mem_append, List.mem_singleton, or_and_right, exists_or, exists_eq_left]
  exact or_congr_right eq_comm

/-- A spend-index entry after `addUnchecked` is an old one, or records an input of the new transaction, which is no
coin import. -/
theorem find_nextTx_addUnchecked {hash : Uint256} {entry : CTxMemPoolEntry} (hok : Op.AddOk s hash entry)
    {o : COutPoint} {p : CInPoint} (hp : (s.addUnchecked hash entry).mapNextTx.find o = some p) :
    s.mapNextTx.find o = some p ∨
      entry.tx.isCoinImport = false ∧ ∃ i, ∃ hi : i < entry.tx.vin.length, o = entry.tx.vin[i].prevout ∧
        p = ⟨entry.tx, i⟩ := by
  rw [addUnchecked_eq hok.hash_eq hok.fresh] at hp
  dsimp only at hp
  split at hp
  · exact .inl hp
  · by_cases ho : o ∈ entry.tx.prevouts
    · obtain ⟨i, hi, rfl⟩ := CTransaction.mem_prevouts.1 ho
      rw [find_insertAll_nextTx hok.prevouts_nodup] at hp
      exact .inr ⟨by simpa using ‹¬entry.tx.isCoinImport = true›, i, hi, rfl, (Option.some.inj hp).symm⟩
    · rw [find_insertAll_nextTx_of_not_mem _ ho] at hp
      exact .inl hp

/-- `addUnchecked`, made as its callers guarantee, preserves the invariant. -/
theorem PoolInv.addUnchecked {hash : Uint256} {entry : CTxMemPoolEntry} (hi : s.PoolInv) (hok : Op.AddOk s hash entry) :
    (s.addUnchecked hash entry).PoolInv := by
  have hent : (s.addUnchecked hash entry).mapTx.entries = s.mapTx.entries ++ [entry] := by
    rw [addUnchecked_eq hok.hash_eq hok.fresh]
    exact insert_entries_of_fresh (hok.hash_eq ▸ hok.fresh : s.mapTx.find entry.GetHash = none)
  have hold : ∀ x ∈ s.mapTx.entries, ∀ o ∈ x.tx.prevouts, o ∉ entry.tx.prevouts :=
    fun x hx o ho hoe => hok.prevouts_unspent x hx o hoe ho
  refine ⟨?_, ?_, ?_, ?_, ?_⟩
  · intro x hx hci i hi'
    rw [hent, List.mem_append, List.mem_singleton] at hx
    rw [addUnchecked_eq hok.hash_eq hok.fresh]
    dsimp only
    rcases hx with hx | rfl
    · have ho := hold x hx _ (CTransaction.prevout_mem _ _ hi')
      split
      · exact hi.complete x hx hci i hi'
      · rw [find_insertAll_nextTx_of_not_mem _ ho]; exact hi.complete x hx hci i hi'
    · rw [if_neg (by simp [hci]), find_insertAll_nextTx hok.prevouts_nodup]
  · intro o p hp
    rcases find_nextTx_addUnchecked hok hp with hp | ⟨-, i, hi', rfl, rfl⟩
    · exact (hi.sound o p hp).imp_left fun h => (pooled_addUnchecked hok).2 (.inl h)
    · exact ⟨(pooled_addUnchecked hok).2 (.inr rfl), hi', rfl⟩
  · intro o p hp
    rcases find_nextTx_addUnchecked hok hp with hp | ⟨himp, -, -, -, rfl⟩
    · exact hi.notImport o p hp
    · exact himp
  · intro x hx y hy hne o hox hoy
    rw [hent, List.mem_append, List.mem_singleton] at hx hy
    rcases hx with hx | rfl <;> rcases hy with hy | rfl
    · exact hi.disjoint x hx y hy hne o hox hoy
    · exact hold x hx o hox hoy
    · exact hold y hy o hoy hox
    · exact hne rfl
  · intro x hx
    rw [hent, List.mem_append, List.mem_singleton] at hx
    rw [addUnchecked_eq hok.hash_eq hok.fresh]
    simp only [find_insertAll_const]
    rcases hx with hx | rfl
    · refine ⟨fun nf hnf => ?_, fun nf hnf => ?_⟩
      · rw [if_neg fun h => hok.sprout_unspent x hx nf h hnf]; exact (hi.nullifiers x hx).1 nf hnf
      · rw [if_neg fun h => hok.sapling_unspent x hx nf h hnf]; exact (hi.nullifiers x hx).2 nf hnf
    · exact ⟨fun nf hnf => if_pos hnf, fun nf hnf => if_pos hnf⟩

/-- `clear()` leaves an empty `mapTx` and `mapNextTx`, where the invariant holds. -/
theorem PoolInv.clear (s : CTxMemPool) : s.clear.PoolInv := by
  refine ⟨?_, ?_, ?_, ?_, ?_⟩ <;> simp [CTxMemPool.clear, TxSet.empty, NextTxComplete, NextTxSound,
    InputsDisjoint, NullifiersComplete, StdMap.find_empty]

/-- A freshly constructed pool satisfies the invariant. -/
theorem PoolInv.empty (fA fS : Bool) : (CTxMemPool.empty fA fS).PoolInv := by
  refine ⟨?_, ?_, ?_, ?_, ?_⟩ <;> simp [CTxMemPool.empty, TxSet.empty, NextTxComplete, NextTxSound,
    InputsDisjoint, NullifiersComplete, StdMap.find_empty]

/-- Every allowed call preserves the invariant. -/
theorem PoolInv.step {op : Op} {s' : CTxMemPool} (hi : s.PoolInv) (ha : op.Allowed s) (h : op.apply s = some s') :
    s'.PoolInv := by
  rcases step_cases ha h with ⟨_, _, hok, rfl⟩ | hrem | ⟨-, rfl⟩ | hb
  · exact hi.addUnchecked hok
  · exact hrem _ PoolInv.removalClosed hi
  · exact PoolInv.clear s
  · exact hi.of_sameIndexes hb.same

/-- Every reachable pool satisfies the invariant. -/
theorem PoolInv.of_reachable (h : Op.Reachable s) : s.PoolInv :=
  Op.Reachable.induction PoolInv.empty (fun _ _ _ hi ha happ => hi.step ha happ) h

end CTxMemPool

end VerusCoin
